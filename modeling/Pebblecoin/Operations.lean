import Pebblecoin.Runs

/-!
Every operation on blocks, whatever its outcome, is a sequence of actions.
-/

namespace Pebblecoin

open Control

/-- The lines of the log that a reorganization writes. -/
def Event.isSwitch : Event → Bool
  | .switchFailed _ _ | .pushExMainFailed => true
  | _ => false

namespace Storage

variable {env : Env} {D : Block → Prop} {now : UInt64}

/-- The lines of the log that are about reorganizations. -/
def switchLog (s : Storage) : List Event := s.log.filter Event.isSwitch

/-- Blocks whose bodies are stored under their hashes. -/
def StoredBlocks (env : Env) (bs : List Block) (s : Storage) : Prop :=
  ∀ b ∈ bs, ∃ id, getBlockHash env.crypto b = some id ∧ s.blocksByHash id = some b

theorem StoredBlocks.grow {bs : List Block} {s s' : Storage} (h : StoredBlocks env bs s)
    (hgrow : BodiesGrow s s') : StoredBlocks env bs s' := by
  intro b hb
  obtain ⟨id, hid, hbody⟩ := h b hb
  exact ⟨id, hid, hgrow id b hbody⟩

theorem fits_of_stored {b : Block} {id : Hash} {s : Storage} (h : s.blocksByHash id = some b) :
    s.Fits b id := by
  intro b' hb'
  exact Option.some.inj (hb'.symm.trans h)

theorem getAlternativeEntry_eq_ok {id : Hash} {bent : BlockchainEntry} {s : Storage}
    (h : s.getAlternativeEntry id = .ok bent) : s.alternativeChainEntries id = some bent := by
  unfold getAlternativeEntry at h
  split at h
  · simp at h
  · rename_i bent' hbent'
    rw [hbent', Except.ok.inj h]

/-- The action keeps the alternative entries. -/
structure ChainActions (env : Env) (D : Block → Prop) (now : UInt64) (s s' : Storage) : Prop where
  actions : Actions env D now s s'
  alternatives : s'.alternativeChainEntries = s.alternativeChainEntries

namespace ChainActions

variable {s s' s'' : Storage}

theorem refl (s : Storage) : ChainActions env D now s s := ⟨.refl, rfl⟩

theorem trans (h : ChainActions env D now s s') (h' : ChainActions env D now s' s'') :
    ChainActions env D now s s'' :=
  ⟨h.actions.trans h'.actions, h'.alternatives.trans h.alternatives⟩

theorem sound (h : ChainActions env D now s s') (hs : s.Sound env) : s'.Sound env :=
  Actions.sound h.actions hs

theorem bodiesGrow (h : ChainActions env D now s s') (hs : s.Sound env) : BodiesGrow s s' :=
  Actions.bodiesGrow h.actions hs

theorem of_pop {popped : Bool} (h : s.popBlockFromBlockchain env now = .ok (popped, s')) :
    ChainActions env D now s s' :=
  ⟨.single (.disconnect h), by rw [(PopFrame.of_pop h).frame]⟩

theorem of_handle {bl : Block} {id : Hash} {exit : HandleExit} (hs : s.Sound env)
    (hoffered : s.Offered D bl id) (hid : getBlockHash env.crypto bl = some id) (hfits : s.Fits bl id)
    (h : s.handleBlockToMainChain env now bl id = .ok (exit, s')) : ChainActions env D now s s' :=
  ⟨.single (.connect hoffered hid hfits h), (handleBlockToMainChain_bodies hs.toWellFormed h).2⟩

end ChainActions

theorem uncountStatistics_switchLog (bl : Block) (s : Storage) :
    Returns (s.uncountStatistics bl) fun s' => s'.switchLog = s.switchLog := by
  refine Returns.bind_const fun prev => ?_
  cases prev with
  | none => exact Returns.ok_iff.mpr rfl
  | some b => exact Returns.bind_const fun fees => Returns.bind_const fun missed => Returns.ok_iff.mpr rfl

theorem popBlockFromBlockchain_switchLog (s : Storage) :
    Returns (s.popBlockFromBlockchain env now) fun r => r.2.switchLog = s.switchLog := by
  refine (popBlockFromBlockchain_steps s).mono fun r hr => ?_
  cases hr with
  | short => rfl
  | stuck hlength hbent hbody hpurge =>
    have hsame := (purgeBlockDataFromBlockchain_sameChain ..).out _ hpurge
    dsimp only at hsame ⊢
    rw [hsame]
    rfl
  | @purged bent bl s₁ s₂ hlength hbent hbody hpurge huncount =>
    have hsame := (purgeBlockDataFromBlockchain_sameChain ..).out _ hpurge
    have hlast : (s₂.removeLastEntry bent).2.switchLog = s₂.switchLog := by
      unfold removeLastEntry
      split <;> rfl
    dsimp only at hsame
    rw [hlast, (uncountStatistics_switchLog ..).out _ huncount, hsame]
    rfl

theorem handleBlockToMainChain_switchLog {bl : Block} {id : Hash} {exit : HandleExit}
    {s s' : Storage} (hs : s.Sound env)
    (h : s.handleBlockToMainChain env now bl id = .ok (exit, s')) : s'.switchLog = s.switchLog := by
  rcases hs.handle_cases h with ⟨taken, l, fee, base, prev, -, happ⟩ | ⟨-, hrej⟩
  · cases prev with
    | none => rw [switchLog, (happ.statistics.notDue rfl).2, switchLog]
    | some blockPrev =>
      obtain ⟨missed, -, -, hlog⟩ := happ.statistics.due blockPrev rfl
      rw [switchLog, hlog]
      rfl
  · rcases hrej.log with hlog | ⟨-, hlog⟩
    · rw [switchLog, hlog, switchLog]
    · rw [switchLog, hlog]
      rfl

/-- Nor does the action write about a reorganization. -/
structure QuietActions (env : Env) (D : Block → Prop) (now : UInt64) (s s' : Storage) : Prop
    extends ChainActions env D now s s' where
  switchLog : s'.switchLog = s.switchLog

namespace QuietActions

variable {s s' s'' : Storage}

theorem refl (s : Storage) : QuietActions env D now s s := ⟨.refl s, rfl⟩

theorem trans (h : QuietActions env D now s s') (h' : QuietActions env D now s' s'') :
    QuietActions env D now s s'' :=
  ⟨h.toChainActions.trans h'.toChainActions, h'.switchLog.trans h.switchLog⟩

theorem of_pop {popped : Bool} (h : s.popBlockFromBlockchain env now = .ok (popped, s')) :
    QuietActions env D now s s' :=
  ⟨.of_pop h, (popBlockFromBlockchain_switchLog s).out _ h⟩

theorem of_handle {bl : Block} {id : Hash} {exit : HandleExit} (hs : s.Sound env)
    (hid : getBlockHash env.crypto bl = some id) (hbody : s.blocksByHash id = some bl)
    (h : s.handleBlockToMainChain env now bl id = .ok (exit, s')) : QuietActions env D now s s' :=
  ⟨.of_handle hs (Or.inr hbody) hid (fits_of_stored hbody) h, handleBlockToMainChain_switchLog hs h⟩

end QuietActions

theorem disconnectBlocks_actions (n : Nat) {popped : List Block} {s : Storage} (hs : s.Sound env)
    (hpopped : StoredBlocks env popped s) :
    Returns (s.disconnectBlocks env now n popped) fun r => QuietActions env D now s r.2 ∧
      ∀ bs, r.1 = some bs → StoredBlocks env bs r.2 := by
  induction n generalizing s popped with
  | zero => exact Returns.ok_iff.mpr ⟨.refl s, fun bs hbs => Option.some.inj hbs ▸ hpopped⟩
  | succ n ih =>
    rw [disconnectBlocks]
    split
    · exact Returns.error
    rename_i bent hbent
    refine Returns.bind_ok fun b hb => ?_
    have hbody := getBlockByHash_eq_ok (reading_eq_ok_iff.mp hb)
    refine Returns.bind_ok fun r hr => ?_
    obtain ⟨r, s'⟩ := r
    have hone : QuietActions env D now s s' := .of_pop hr
    have hs' := hone.sound hs
    have hgrow := hone.bodiesGrow hs
    dsimp only
    split
    · refine (ih hs' ?_).mono fun r' hr' => ⟨hone.trans hr'.1, hr'.2⟩
      intro c hc
      rcases List.mem_cons.mp hc with rfl | hc
      · exact ⟨bent.hash, hs.hashes _ _ hbody, hgrow _ _ hbody⟩
      · exact hpopped.grow hgrow c hc
    · exact Returns.ok_iff.mpr ⟨hone, nofun⟩

theorem popBlocks_actions (n : Nat) {s : Storage} :
    Returns (s.popBlocks env now n) fun r => QuietActions env D now s r.2 := by
  induction n generalizing s with
  | zero => exact Returns.ok_iff.mpr (.refl s)
  | succ n ih =>
    rw [popBlocks]
    refine Returns.bind_ok fun r hr => ?_
    obtain ⟨r, s'⟩ := r
    have hone : QuietActions env D now s s' := .of_pop hr
    dsimp only
    split
    · exact ih.mono fun r' hr' => hone.trans hr'
    · exact Returns.ok_iff.mpr hone

theorem connectBlocks_actions {bs : List Block} {s : Storage} (hs : s.Sound env)
    (hbs : StoredBlocks env bs s) :
    Returns (s.connectBlocks env now bs) fun r => QuietActions env D now s r.2 := by
  induction bs generalizing s with
  | nil => exact Returns.ok_iff.mpr (.refl s)
  | cons b bs ih =>
    obtain ⟨id, hid, hbody⟩ := hbs b (by simp)
    rw [connectBlocks, hid, Option.getD_some]
    refine Returns.bind_ok fun r hr => ?_
    obtain ⟨exit, s'⟩ := r
    have hone := QuietActions.of_handle (D := D) hs hid hbody hr
    dsimp only
    split
    · refine (ih (hone.sound hs) ?_).mono fun r' hr' => hone.trans hr'
      exact StoredBlocks.grow (fun c hc => hbs c (by simp [hc])) (hone.bodiesGrow hs)
    · exact Returns.ok_iff.mpr hone

theorem rollbackBlockchainSwitching_actions {original : List Block} {height : Nat} {s : Storage}
    (hs : s.Sound env) (horiginal : StoredBlocks env original s) :
    Returns (s.rollbackBlockchainSwitching env now original height) fun r =>
      QuietActions env D now s r.2 := by
  refine Returns.bind (popBlocks_actions (D := D) _) fun r hr => ?_
  obtain ⟨r, s'⟩ := r
  dsimp only at hr ⊢
  split
  · exact (connectBlocks_actions (D := D) (hr.sound hs) (horiginal.grow (hr.bodiesGrow hs))).mono
      fun r' hr' => hr.trans hr'
  · exact Returns.ok_iff.mpr hr

theorem connectBranch_actions {disconnected : List Block} {height : Nat} {ids : List Hash}
    {s : Storage} (hs : s.Sound env) (hdisc : StoredBlocks env disconnected s) :
    Returns (s.connectBranch env now disconnected height ids) fun r => Actions env D now s r.2 := by
  induction ids generalizing s with
  | nil => exact Returns.ok_iff.mpr .refl
  | cons id ids ih =>
    rw [connectBranch]
    refine Returns.bind_ok fun bent hbent => ?_
    refine Returns.bind_ok fun bl hbl => ?_
    have hbent := getAlternativeEntry_eq_ok (reading_eq_ok_iff.mp hbent)
    have hbody := getBlockByHash_eq_ok (reading_eq_ok_iff.mp hbl)
    have hid := hs.hashes id bl hbody
    dsimp only
    rw [hid, Option.getD_some]
    refine Returns.bind_ok fun r hr => ?_
    obtain ⟨exit, s₁⟩ := r
    have hone := QuietActions.of_handle (D := D) hs hid hbody hr
    have hs₁ := hone.sound hs
    have hdisc₁ := hdisc.grow (hone.bodiesGrow hs)
    dsimp only
    split
    · exact (ih hs₁ hdisc₁).mono fun r' hr' => hone.actions.trans hr'
    · refine Returns.bind (rollbackBlockchainSwitching_actions (D := D) hs₁ hdisc₁) fun r' hr' => ?_
      obtain ⟨rolledBack, s₂⟩ := r'
      have hrun := hone.trans hr'
      refine Returns.ok_iff.mpr (hrun.actions.trans ?_)
      refine .tail (.single (.logSwitchFailed id rolledBack)) (.markInvalid (id :: ids) ?_ ?_)
      · exact hrun.bodiesGrow hs id bl hbody
      · exact (congrFun hrun.alternatives id).trans hbent

/-- What the handler of alternative blocks has to satisfy. -/
def HandlesByActions (env : Env) (D : Block → Prop) (now : UInt64)
    (handle : Block → Hash → Storage → Except Interrupted (AltExit × Storage)) : Prop :=
  ∀ b id s, s.Sound env → s.Offered D b id → getBlockHash env.crypto b = some id → s.Fits b id →
    Returns (handle b id s) fun r => Actions env D now s r.2

theorem pushAlternatives_actions
    {handle : Block → Hash → Storage → Except Interrupted (AltExit × Storage)}
    (hhandle : HandlesByActions env D now handle) {bs : List Block} {s : Storage} (hs : s.Sound env)
    (hbs : StoredBlocks env bs s) :
    Returns (s.pushAlternatives env handle bs) fun r => Actions env D now s r.2 := by
  induction bs generalizing s with
  | nil => exact Returns.ok_iff.mpr .refl
  | cons b bs ih =>
    obtain ⟨id, hid, hbody⟩ := hbs b (by simp)
    rw [pushAlternatives, hid, Option.getD_some]
    refine Returns.bind (hhandle b id s hs (Or.inr hbody) hid (fits_of_stored hbody)) fun r hr => ?_
    obtain ⟨exit, s'⟩ := r
    dsimp only at hr ⊢
    split
    · refine (ih (Actions.sound hr hs) ?_).mono fun r' hr' => hr.trans hr'
      exact StoredBlocks.grow (fun c hc => hbs c (by simp [hc])) (Actions.bodiesGrow hr hs)
    · exact Returns.ok_iff.mpr hr

theorem switchToAlternativeBlockchain_actions
    {handle : Block → Hash → Storage → Except Interrupted (AltExit × Storage)}
    (hhandle : HandlesByActions env D now handle) {altChain : List Hash} {discard : Bool}
    {s : Storage} (hs : s.Sound env) :
    Returns (s.switchToAlternativeBlockchain env now handle altChain discard) fun r =>
      Actions env D now s r.2 := by
  cases altChain with
  | nil => exact Returns.ok_iff.mpr .refl
  | cons front rest =>
    refine Returns.bind_const fun splitHeight => ?_
    split
    · exact Returns.ok_iff.mpr .refl
    refine Returns.bind (disconnectBlocks_actions (D := D) _ hs (by simp [StoredBlocks])) fun r hr => ?_
    obtain ⟨disconnected, s₁⟩ := r
    obtain ⟨hpop, hdisc⟩ := hr
    cases disconnected with
    | none => exact Returns.ok_iff.mpr hpop.actions
    | some disconnected =>
      have hs₁ := hpop.sound hs
      have hdisc := hdisc _ rfl
      refine Returns.bind (connectBranch_actions (D := D) hs₁ hdisc) fun r hr => ?_
      obtain ⟨connected, s₂⟩ := r
      have hrun₂ := hpop.actions.trans hr
      dsimp only at hr hrun₂ ⊢
      split
      · exact Returns.ok_iff.mpr hrun₂
      split
      · exact Returns.ok_iff.mpr (.tail hrun₂ (.eraseAlternatives _))
      have hdisc₂ := hdisc.grow (Actions.bodiesGrow hr hs₁)
      have hs₂ := Actions.sound hrun₂ hs
      refine Returns.bind (pushAlternatives_actions hhandle hs₂ hdisc₂) fun r hr => ?_
      obtain ⟨pushed, s₃⟩ := r
      have hrun₃ := hrun₂.trans hr
      dsimp only at hr hrun₃ ⊢
      split
      · exact Returns.ok_iff.mpr (.tail hrun₃ (.eraseAlternatives _))
      have hlog : Action env D now s₃ { s₃ with log := .pushExMainFailed :: s₃.log } :=
        .logPushFailed
      have hrun₄ := Relation.ReflTransGen.tail hrun₃ hlog
      refine Returns.bind (rollbackBlockchainSwitching_actions (D := D) (Actions.sound hrun₄ hs)
        (hdisc₂.grow ((Actions.bodiesGrow hr hs₂).trans (.refl _)))) fun r hr => ?_
      exact Returns.ok_iff.mpr (hrun₄.trans hr.actions)

variable (now) in
theorem prepareAlternativeBlock_actions {fuel : Nat} {b : Block} {id : Hash} {s : Storage}
    (hoffered : s.Offered D b id) (hid : getBlockHash env.crypto b = some id)
    (hfits : s.Fits b id) :
    Returns (s.prepareAlternativeBlock env fuel b id) fun r => Actions env D now s r.2 := by
  unfold prepareAlternativeBlock
  split
  · exact Returns.ok_iff.mpr .refl
  split
  · exact Returns.ok_iff.mpr .refl
  split
  · exact Returns.ok_iff.mpr .refl
  refine Returns.bind_ok fun branch hbranch => ?_
  obtain ⟨branch, timestamps⟩ := branch
  refine Returns.bind
    (P := fun r => s.branchTimestamps branch timestamps (s.blocksIndex b.prevId) = .ok r)
    ⟨fun _ h => reading_eq_ok_iff.mp h⟩ fun stamps hstamps => ?_
  cases stamps with
  | error exit => exact Returns.ok_iff.mpr .refl
  | ok stamps =>
    refine Returns.bind_const fun valid => ?_
    split
    · exact Returns.ok_iff.mpr .refl
    have hstore : Action env D now s
        { s with blocksByHash := Function.update s.blocksByHash id (some b) } :=
      .storeBody hoffered hid hfits
    have hgrow : BodiesGrow s
        { s with blocksByHash := Function.update s.blocksByHash id (some b) } :=
      .of_update hfits rfl
    constructor
    rintro ⟨r, s'⟩ hr
    cases r with
    | error exit =>
      obtain rfl := placeAlternativeBlock_eq_error hr
      exact .single hstore
    | ok place =>
      exact .tail (.single hstore) (.place (Function.update_self ..) 
        (hgrow.branchTo rfl (reading_eq_ok_iff.mp hbranch))
        (hgrow.branchTimestamps rfl rfl hstamps) hr)

theorem handleAlternativeBlock_actions (fuel : Nat) :
    HandlesByActions env D now (handleAlternativeBlock env now fuel) := by
  induction fuel with
  | zero => exact fun _ _ _ _ _ _ _ => Returns.error
  | succ fuel ih =>
    intro b id s hs hoffered hid hfits
    rw [handleAlternativeBlock]
    refine Returns.bind (prepareAlternativeBlock_actions (D := D) now hoffered hid hfits) fun r hr => ?_
    obtain ⟨r, s₁⟩ := r
    cases r with
    | error exit => exact Returns.ok_iff.mpr hr
    | ok place =>
      dsimp only at hr ⊢
      split
      · refine Returns.bind (switchToAlternativeBlockchain_actions ih (Actions.sound hr hs))
          fun r' hr' => ?_
        exact Returns.ok_iff.mpr (hr.trans hr')
      · exact Returns.ok_iff.mpr hr

theorem addNewBlock_actions (fuel : Nat) {bl : Block} (hbl : D bl) {s : Storage}
    (hs : s.Sound env) :
    Returns (s.addNewBlock env now fuel bl) fun r => Actions env D now s r.2 := by
  unfold addNewBlock
  split
  · exact Returns.ok_iff.mpr .refl
  rename_i id hid
  split
  · exact Returns.ok_iff.mpr .refl
  rename_i hhave
  have hfits : s.Fits bl id := by
    intro b hb
    simp [haveBlock, hb] at hhave
  split
  · refine Returns.bind_ok fun r hr => ?_
    exact Returns.ok_iff.mpr (.single (.connect (Or.inl hbl) hid hfits hr))
  · refine Returns.bind (handleAlternativeBlock_actions fuel bl id s hs (Or.inl hbl) hid hfits) fun r hr => ?_
    exact Returns.ok_iff.mpr hr

theorem handleIncomingTx_sameButPool (blob : Wire.Bytes) (kept : Bool) (s : Storage) :
    Returns (s.handleIncomingTx env now blob kept) fun r => s.SameButPool r.2.2 := by
  unfold handleIncomingTx
  split
  · exact Returns.ok_iff.mpr (.refl s)
  split
  · exact Returns.ok_iff.mpr (.refl s)
  split
  · exact Returns.ok_iff.mpr (.refl s)
  split
  · exact Returns.ok_iff.mpr (.refl s)
  · exact poolAddTx_sameButPool ..

theorem handleIncomingTx_sound (blob : Wire.Bytes) (kept : Bool) {s : Storage} (hs : s.Sound env) :
    Returns (s.handleIncomingTx env now blob kept) fun r => r.2.2.Sound env := by
  constructor
  intro r hr
  have hsame := (handleIncomingTx_sameButPool blob kept s).out _ hr
  have hvetted := (handleIncomingTx_allTxs (fun _ txHash _ _ hsemantic =>
    isVetted_of_checkTxSemantic txHash hsemantic) hs.vetted).out _ hr
  rw [hsame] at hvetted ⊢
  exact ⟨⟨hs.popping, hvetted, ⟨hs.chain.indexed, hs.chain.bodies⟩, hs.nonempty⟩, hs.hashes,
    hs.alternatives⟩

theorem Initial.appended {s : Storage} (h : s.Initial env) :
    ∃ now genesis id taken l fee base prev, getBlockHash env.crypto genesis = some id ∧
      Appended env now genesis id taken l fee base prev Storage.empty s := by
  obtain ⟨now, genesis, id, hid, hrun⟩ := h
  obtain ⟨taken, l, fee, base, prev, happ⟩ :=
    handleBlockToMainChain_eq_added AllTxs.empty rfl hrun
  exact ⟨now, genesis, id, taken, l, fee, base, prev, hid, happ⟩

theorem Initial.sound {s : Storage} (h : s.Initial env) : s.Sound env := by
  obtain ⟨now, genesis, id, hid, hrun⟩ := h
  have hvetted := (handleBlockToMainChain_vetted genesis id AllTxs.empty).out _ hrun
  obtain ⟨taken, l, fee, base, prev, happ⟩ :=
    handleBlockToMainChain_eq_added AllTxs.empty rfl hrun
  have hchain : Storage.empty.ChainOk := ⟨fun _ _ h => (nomatch h), fun _ _ h => (nomatch h)⟩
  refine ⟨⟨happ.popping, hvetted, happ.chainOk hchain, by simp [happ.entries]⟩, ?_, ?_⟩
  · intro k b hb
    rw [happ.blocks, Function.update_apply] at hb
    split_ifs at hb with hk
    · cases hb
      rw [hk, hid]
    · cases hb
  · intro k bent hbent
    rw [happ.alternatives] at hbent
    cases hbent

/-- An invariant of the actions, of receiving transactions and of the hash cache holds at the end of
every run without an interrupted call. -/
theorem run_invariant (C : Wire.Bytes → Prop) (D : Block → Prop) (E : Hash → Option Hash → Prop)
    (P : Storage → Prop)
    (hreceive : ∀ {now blob kept s r}, s.Sound env → C blob → P s →
      s.handleIncomingTx env now blob kept = .ok r → P r.2.2)
    (haction : ∀ {now s s'}, s.Sound env → P s → Action env D now s s' → P s')
    (hlearn : ∀ {id longhash s}, E id longhash → P s → P (s.learnLonghash id longhash))
    {ops : List (UInt64 × Op)} {s s' : Storage} (hs : s.Sound env) (hP : P s)
    (hops : ∀ op ∈ ops, op.2.Receives C D E) (hcalm : s.Uninterrupted env ops)
    (h : s.run env ops = .ok s') : s'.Sound env ∧ P s' := by
  have hactions : ∀ {now s s'}, s.Sound env → P s → Actions env D now s s' → P s' := by
    intro now s s' hs hP hrun
    induction hrun with
    | refl => exact hP
    | tail hrun hlast ih => exact haction (Actions.sound hrun hs) ih hlast
  induction ops generalizing s with
  | nil =>
    obtain rfl := Except.ok.inj h
    exact ⟨hs, hP⟩
  | cons op ops ih =>
    obtain ⟨now, op⟩ := op
    obtain ⟨t, ht, hrest⟩ := bind_eq_ok_iff.mp h
    have hop := hops (now, op) (by simp)
    have hops' := fun op hmem => hops op (List.mem_cons_of_mem _ hmem)
    have hcalm' := hcalm.2 t ht
    rcases step_cases hcalm.1 ht with ht | rfl
    · cases op with
      | handleIncomingTx blob kept =>
        obtain ⟨r, hr, rfl⟩ := map_eq_ok_iff.mp ht
        exact ih ((handleIncomingTx_sound blob kept hs).out _ hr) (hreceive hs hop hP hr) hops'
          hcalm' hrest
      | addNewBlock fuel bl =>
        obtain ⟨r, hr, rfl⟩ := map_eq_ok_iff.mp ht
        have hrun := (addNewBlock_actions fuel hop hs).out _ hr
        exact ih (Actions.sound hrun hs) (hactions hs hP hrun) hops' hcalm' hrest
      | popBlockFromBlockchain =>
        obtain ⟨r, hr, rfl⟩ := map_eq_ok_iff.mp ht
        have hrun : Action env D now s r.2 := .disconnect hr
        exact ih (hrun.sound hs) (haction hs hP hrun) hops' hcalm' hrest
      | learnLonghash id longhash =>
        obtain rfl := Except.ok.inj ht
        exact ih (hs.learnLonghash id longhash) (hlearn hop hP) hops' hcalm' hrest
    · exact ih hs hP hops' hcalm' hrest

theorem Reachable.sound {s : Storage} (h : s.Reachable env) : s.Sound env := by
  obtain ⟨s₀, ops, hinit, hcalm, hrun⟩ := h
  refine (run_invariant (fun _ => True) (fun _ => True) (fun _ _ => True) (fun _ => True)
    (fun _ _ _ _ => trivial) (fun _ _ _ => trivial) (fun _ _ => trivial) hinit.sound trivial
    (fun op _ => ?_) hcalm hrun).1
  obtain ⟨now, op⟩ := op
  cases op <;> exact trivial

end Storage

end Pebblecoin
