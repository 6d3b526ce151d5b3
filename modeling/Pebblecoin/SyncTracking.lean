import Pebblecoin.ConnectionSync

/-!
What becomes of the ids that chain entries list while a connection synchronizes,
for any core that does not lose blocks.
-/

namespace Pebblecoin.ProtocolHandler

open Control
open Wallet2 (blockId)

section Tracking

variable {σ : Type} {crypto : Crypto} {cfg : HandlerConfig} {core : CoreInterface σ}
  {Inv : σ → Prop} {Heard : σ → Wire.Bytes → Prop} {s s' s'' : σ} {ctx : ConnectionContext}
  {listed : List Hash}

/-- Blocks that the core has are not lost. -/
def Keeps (core : CoreInterface σ) (s s' : σ) : Prop :=
  ∀ id, core.haveBlock s id = true → core.haveBlock s' id = true

theorem Keeps.refl (s : σ) : Keeps core s s := fun _ h => h

theorem Keeps.trans (h : Keeps core s s') (h' : Keeps core s' s'') : Keeps core s s'' :=
  fun id hid => h' id (h id hid)

/-- The operations of the core keep the invariant and the blocks. A block that comes
while it is heard, and whose answer names no failure, is there afterwards. -/
structure CoreLaws (crypto : Crypto) (core : CoreInterface σ) (Inv : σ → Prop)
    (Heard : σ → Wire.Bytes → Prop) : Prop where
  tx : ∀ {blob kept s tvc s'}, Inv s → core.handleIncomingTx blob kept s = .ok (tvc, s') →
    Inv s' ∧ Keeps core s s'
  block : ∀ {blob s bvc s'}, Inv s → core.handleIncomingBlock blob s = .ok (bvc, s') →
    Inv s' ∧ Keeps core s s'
  signed : ∀ {entry s s'}, Inv s → core.addSignedLonghash entry s = some s' →
    Inv s' ∧ Keeps core s s'
  heard : ∀ {blob s bvc s' b}, Inv s → Heard s blob →
    core.handleIncomingBlock blob s = .ok (bvc, s') → bvc.missingLonghash = false →
    bvc.verificationFailed = false → bvc.markedAsOrphaned = false →
    parseAndValidateBlockFromBlob blob = some b → core.haveBlock s' (blockId crypto b) = true

/-- Every listed block is there, needed or requested. -/
def Tracked (core : CoreInterface σ) (s : σ) (ctx : ConnectionContext) (listed : List Hash) : Prop :=
  ∀ id ∈ listed, core.haveBlock s id = true ∨ id ∈ ctx.neededObjects ∨ id ∈ ctx.requestedObjects

theorem Tracked.keeps (h : Tracked core s ctx listed) (hkeeps : Keeps core s s') :
    Tracked core s' ctx listed :=
  fun id hid => (h id hid).imp_left (hkeeps id)

theorem Tracked.filterNeeded (h : Tracked core s ctx listed) :
    Tracked core s (filterNeeded cfg core s ctx) listed := by
  intro id hid
  by_cases hhave : core.haveBlock s id = true
  · exact .inl hhave
  · rcases h id hid with h | h | h
    · exact .inl h
    · exact .inr (.inl (List.mem_filter.mpr ⟨h, by simpa [needBlock] using hhave⟩))
    · exact .inr (.inr h)

theorem Tracked.requestNeeded (h : Tracked core s ctx listed) :
    Tracked core s (requestNeeded cfg ctx).2 listed := by
  rw [ProtocolHandler.requestNeeded]
  split_ifs
  · exact h
  · intro id hid
    rcases h id hid with h | h | h
    · exact .inl h
    · rw [← List.take_append_drop blocksSynchronizingDefaultCount ctx.neededObjects] at h
      rcases List.mem_append.mp h with h | h
      · exact .inr (.inr (Finset.mem_union_right _ (List.mem_toFinset.mpr h)))
      · exact .inr (.inl h)
    · exact .inr (.inr (Finset.mem_union_left _ h))

@[simp] theorem requestNeeded_state : (requestNeeded cfg ctx).2.state = ctx.state := by
  rw [requestNeeded]
  split_ifs <;> rfl

/-- The connection is synchronized: what was listed is there and nothing is requested. -/
def Settled (core : CoreInterface σ) (s : σ) (ctx : ConnectionContext) (listed : List Hash) : Prop :=
  (∀ id ∈ listed, core.haveBlock s id = true) ∧ ctx.requestedObjects = ∅

variable (cfg) in
/-- Asking for what is missing keeps track of the listed blocks, and moves the
connection only if they are all there. -/
theorem requestMissingObjects_tracked (check : Bool) (h : Tracked core s ctx listed) :
    let ctx' := (requestMissingObjects cfg core check false s ctx).2.2
    Tracked core s ctx' listed ∧
      (ctx'.state = ctx.state ∨ ctx'.state = .normal ∧ Settled core s ctx' listed) := by
  have hfiltered : Tracked core s (if check then filterNeeded cfg core s ctx else ctx) listed := by
    cases check with
    | false => exact h
    | true => exact h.filterNeeded
  have hstate : (if check then filterNeeded cfg core s ctx else ctx).state = ctx.state := by
    cases check <;> rfl
  simp only [requestMissingObjects, Bool.false_or]
  generalize (if check then filterNeeded cfg core s ctx else ctx) = ctx₁ at hfiltered hstate ⊢
  have hrequested : Tracked core s (requestNeeded cfg ctx₁).2 listed := hfiltered.requestNeeded
  have hstate' : (requestNeeded cfg ctx₁).2.state = ctx.state := by rw [requestNeeded_state, hstate]
  generalize requestNeeded cfg ctx₁ = r at hrequested hstate' ⊢
  obtain ⟨posted, ctx₂⟩ := r
  split_ifs with hneed hmore hfinal
  · exact ⟨hrequested, .inl hstate'⟩
  · exact ⟨hrequested, .inl hstate'⟩
  · refine ⟨hrequested, .inr ⟨rfl, fun id hid => ?_, hfinal.2.2⟩⟩
    rcases hrequested id hid with h | h | h
    · exact h
    · rw [hfinal.2.1] at h
      cases h
    · rw [hfinal.2.2] at h
      cases h
  · exact ⟨hrequested, .inl hstate'⟩

theorem processTxs_keeps (laws : CoreLaws crypto core Inv Heard) {kept added : Bool}
    {txs : List Wire.Bytes} (hs : Inv s) (h : processTxs core kept txs s = .ok (added, s')) :
    Inv s' ∧ Keeps core s s' := by
  induction txs generalizing s with
  | nil =>
    cases h
    exact ⟨hs, .refl _⟩
  | cons txBlob rest ih =>
    obtain ⟨⟨tvc, s₁⟩, htx, h⟩ := bind_eq_ok_iff.mp h
    obtain ⟨hs₁, hkeeps⟩ := laws.tx hs htx
    dsimp only at h
    split_ifs at h with hfailed
    · cases h
      exact ⟨hs₁, hkeeps⟩
    · obtain ⟨hs', hkeeps'⟩ := ih hs₁ h
      exact ⟨hs', hkeeps.trans hkeeps'⟩

/-- The blocks are heard when they come up, after their transactions. -/
def HeardBlocks (core : CoreInterface σ) (Heard : σ → Wire.Bytes → Prop) :
    List BlockCompleteBlobs → σ → Prop
  | [], _ => True
  | blockEntry :: rest, s =>
    ∀ s₁, processTxs core true blockEntry.txs s = .ok (true, s₁) → Heard s₁ blockEntry.block ∧
      ∀ bvc s₂, core.handleIncomingBlock blockEntry.block s₁ = .ok (bvc, s₂) →
        HeardBlocks core Heard rest s₂

theorem processBlocks_keeps (laws : CoreLaws crypto core Inv Heard) {processed : Processed}
    {blocks : List BlockCompleteBlobs} (hs : Inv s)
    (h : processBlocks core blocks s = .ok (processed, s')) : Inv s' ∧ Keeps core s s' := by
  induction blocks generalizing s with
  | nil =>
    cases h
    exact ⟨hs, .refl _⟩
  | cons blockEntry rest ih =>
    obtain ⟨⟨added, s₁⟩, htxs, h⟩ := bind_eq_ok_iff.mp h
    obtain ⟨hs₁, hkeeps₁⟩ := processTxs_keeps laws hs htxs
    dsimp only at h
    split_ifs at h with hadded
    · cases h
      exact ⟨hs₁, hkeeps₁⟩
    obtain ⟨⟨bvc, s₂⟩, hblock, h⟩ := bind_eq_ok_iff.mp h
    obtain ⟨hs₂, hkeeps₂⟩ := laws.block hs₁ hblock
    dsimp only at h
    split_ifs at h
    · cases h
      exact ⟨hs₂, hkeeps₁.trans hkeeps₂⟩
    · cases h
      exact ⟨hs₂, hkeeps₁.trans hkeeps₂⟩
    · cases h
      exact ⟨hs₂, hkeeps₁.trans hkeeps₂⟩
    · obtain ⟨hs', hkeeps'⟩ := ih hs₂ h
      exact ⟨hs', (hkeeps₁.trans hkeeps₂).trans hkeeps'⟩

theorem processBlocks_have (laws : CoreLaws crypto core Inv Heard)
    {blocks : List BlockCompleteBlobs} (hs : Inv s) (hheard : HeardBlocks core Heard blocks s)
    (h : processBlocks core blocks s = .ok (.all, s')) {blockEntry : BlockCompleteBlobs}
    (hmem : blockEntry ∈ blocks) {b : Block}
    (hparse : parseAndValidateBlockFromBlob blockEntry.block = some b) :
    core.haveBlock s' (blockId crypto b) = true := by
  induction blocks generalizing s with
  | nil => cases hmem
  | cons first rest ih =>
    obtain ⟨⟨added, s₁⟩, htxs, h⟩ := bind_eq_ok_iff.mp h
    dsimp only at h
    split_ifs at h with hadded
    · cases h
    obtain rfl : added = true := by simpa using hadded
    obtain ⟨hs₁, -⟩ := processTxs_keeps laws hs htxs
    obtain ⟨hfirst, hrest⟩ := hheard s₁ htxs
    obtain ⟨⟨bvc, s₂⟩, hblock, hrun⟩ := bind_eq_ok_iff.mp h
    obtain ⟨hs₂, -⟩ := laws.block hs₁ hblock
    dsimp only at hrun
    split_ifs at hrun with hmissing hfailed horphaned
    · cases hrun
    · cases hrun
    · cases hrun
    rcases List.mem_cons.mp hmem with rfl | hmem
    · have hhave := laws.heard hs₁ hfirst hblock (Bool.eq_false_iff.mpr hmissing)
        (Bool.eq_false_iff.mpr hfailed) (Bool.eq_false_iff.mpr horphaned) hparse
      exact (processBlocks_keeps laws hs₂ hrun).2 _ hhave
    · exact ih hs₂ (hrest bvc s₂ hblock) hrun hmem

theorem claimBlocks_all {count : Nat} {blocks : List BlockCompleteBlobs}
    {requested requested' : Finset Hash}
    (h : claimBlocks crypto core s count blocks requested = .all requested') {id : Hash}
    (hid : id ∈ requested) : id ∈ requested' ∨ ∃ blockEntry ∈ blocks, ∃ b,
      parseAndValidateBlockFromBlob blockEntry.block = some b ∧ blockId crypto b = id := by
  induction blocks generalizing count requested with
  | nil =>
    cases h
    exact .inl hid
  | cons blockEntry rest ih =>
    rw [claimBlocks] at h
    cases hparse : parseAndValidateBlockFromBlob blockEntry.block with
    | none => simp [hparse] at h
    | some b =>
      simp only [hparse] at h
      split_ifs at h
      by_cases heq : blockId crypto b = id
      · exact .inr ⟨blockEntry, List.mem_cons_self, b, hparse, heq⟩
      · refine (ih h (Finset.mem_erase.mpr ⟨Ne.symm heq, hid⟩)).imp_right ?_
        rintro ⟨entry, hentry, rest⟩
        exact ⟨entry, List.mem_cons_of_mem _ hentry, rest⟩

/-- After an event the connection is dropped or idle, or the listed blocks are still
tracked and it is synchronized only if they are all there. -/
def Follows (core : CoreInterface σ) (ctx : ConnectionContext) (listed : List Hash)
    (r : Handled σ) : Prop :=
  r.dropped = true ∧ r.context.state = ctx.state ∨ r.context.state = .idle ∨
    Tracked core r.core r.context listed ∧
      (r.context.state = ctx.state ∨
        r.context.state = .normal ∧ Settled core r.core r.context listed)

theorem Follows.idle (s : σ) (posted : List Posted) (ctx' : ConnectionContext) :
    Follows core ctx listed ⟨ctx'.enterIdleState, s, posted, false⟩ :=
  .inr (.inl rfl)

theorem Follows.same {ctx' : ConnectionContext} {posted : List Posted} {dropped : Bool}
    (h : Tracked core s ctx' listed) (hstate : ctx'.state = ctx.state) :
    Follows core ctx listed ⟨ctx', s, posted, dropped⟩ :=
  .inr (.inr ⟨h, .inl hstate⟩)

theorem takeObjects_follows (laws : CoreLaws crypto core Inv Heard) {arg : ResponseGetObjects}
    {r : Handled σ} (hs : Inv s) (hheard : HeardBlocks core Heard arg.blocks s)
    (h : Tracked core s ctx listed) (hr : takeObjects crypto cfg core arg s ctx = .ok r) :
    Inv r.core ∧ Follows core ctx listed r := by
  simp only [takeObjects] at hr
  cases hclaim : claimBlocks crypto core s 0 arg.blocks ctx.requestedObjects with
  | wrong requested =>
    simp only [hclaim] at hr
    cases hr
    exact ⟨hs, .inl ⟨rfl, rfl⟩⟩
  | alreadyDelivered =>
    simp only [hclaim] at hr
    cases hr
    exact ⟨hs, .idle s [] _⟩
  | all requested =>
    simp only [hclaim] at hr
    by_cases hnotSent : (!arg.blocksNotSent.isEmpty && cfg.doBoulderhash) = true
    · rw [if_pos hnotSent] at hr
      cases hr
      exact ⟨hs, .inl ⟨rfl, rfl⟩⟩
    rw [if_neg hnotSent] at hr
    by_cases hrest : (!(claimNotSent arg.blocksNotSent requested).1 ||
        decide ((claimNotSent arg.blocksNotSent requested).2 ≠ ∅)) = true
    · rw [if_pos hrest] at hr
      cases hr
      exact ⟨hs, .inl ⟨rfl, rfl⟩⟩
    rw [if_neg hrest] at hr
    obtain ⟨⟨processed, s₁⟩, hprocess, hr⟩ := bind_eq_ok_iff.mp hr
    obtain ⟨hs₁, hkeeps⟩ := processBlocks_keeps laws hs hprocess
    cases processed with
    | missingLonghash =>
      cases hr
      exact ⟨hs₁, .idle s₁ [] _⟩
    | failed =>
      cases hr
      exact ⟨hs₁, .inl ⟨rfl, rfl⟩⟩
    | all =>
      by_cases hsent : arg.blocksNotSent = []
      · -- everything was sent, so what was requested has been delivered
        simp only [hsent, List.isEmpty_nil, claimNotSent, Bool.not_true, Bool.false_or,
          Bool.false_eq_true, if_false, decide_eq_true_eq, ne_eq, not_not] at hr hrest
        subst hrest
        cases hr
        have htracked : Tracked core s₁ { ctx with
            remoteBlockchainHeight := arg.currentBlockchainHeight
            requestedObjects := ∅ } listed := by
          intro id hid
          rcases h id hid with h | h | h
          · exact .inl (hkeeps id h)
          · exact .inr (.inl h)
          · rcases claimBlocks_all hclaim h with h | ⟨blockEntry, hmem, b, hparse, rfl⟩
            · cases h
            · exact .inl (processBlocks_have laws hs hheard hprocess hmem hparse)
        exact ⟨hs₁, .inr (.inr (requestMissingObjects_tracked cfg true htracked))⟩
      · rw [if_pos (by simpa using hsent)] at hr
        cases hr
        exact ⟨hs₁, .idle s₁ [] _⟩

theorem addSignedHashes_keeps (laws : CoreLaws crypto core Inv Heard)
    {entries : List SignedHashEntry} {added : Bool} (hs : Inv s)
    (h : addSignedHashes core entries s = (added, s')) : Inv s' ∧ Keeps core s s' := by
  induction entries generalizing s with
  | nil =>
    cases h
    exact ⟨hs, .refl _⟩
  | cons entry rest ih =>
    rw [addSignedHashes] at h
    cases hadd : core.addSignedLonghash entry s with
    | none =>
      rw [hadd] at h
      cases h
      exact ⟨hs, .refl _⟩
    | some s₁ =>
      rw [hadd] at h
      obtain ⟨hs₁, hkeeps⟩ := laws.signed hs hadd
      obtain ⟨hs', hkeeps'⟩ := ih hs₁ h
      exact ⟨hs', hkeeps.trans hkeeps'⟩

/-- The blocks that the event delivers are heard. -/
def HeardEvent (core : CoreInterface σ) (Heard : σ → Wire.Bytes → Prop) (s : σ) :
    ConnectionEvent → Prop
  | .responseGetObjects arg => ∀ s₁, addSignedHashes core arg.signedHashes s = (true, s₁) →
      HeardBlocks core Heard arg.blocks s₁
  | _ => True

/-- The ids that the event adds to the listed ones. -/
def acceptedIds (core : CoreInterface σ) (s : σ) : ConnectionEvent → List Hash
  | .responseChainEntry arg => if acceptsChainEntry core arg s then arg.blockIds else []
  | _ => []

theorem handleResponseGetObjects_follows (laws : CoreLaws crypto core Inv Heard)
    {arg : ResponseGetObjects} {r : Handled σ} (hs : Inv s)
    (hheard : HeardEvent core Heard s (.responseGetObjects arg)) (h : Tracked core s ctx listed)
    (hr : handleResponseGetObjects crypto cfg core arg s ctx = .ok r) :
    Inv r.core ∧ Follows core ctx listed r := by
  simp only [handleResponseGetObjects] at hr
  split_ifs at hr with hheight hadded
  · cases hr
    exact ⟨hs, .inl ⟨rfl, rfl⟩⟩
  · cases hr
    exact ⟨(addSignedHashes_keeps laws hs rfl).1, .inl ⟨rfl, rfl⟩⟩
  · obtain ⟨hs₁, hkeeps⟩ : Inv (addSignedHashes core arg.signedHashes s).2 ∧
        Keeps core s (addSignedHashes core arg.signedHashes s).2 :=
      addSignedHashes_keeps laws hs rfl
    have hall : addSignedHashes core arg.signedHashes s =
        (true, (addSignedHashes core arg.signedHashes s).2) :=
      Prod.ext (by simpa using hadded) rfl
    exact takeObjects_follows laws hs₁ (hheard _ hall) (h.keeps hkeeps) hr

theorem handleResponseChainEntry_follows {arg : ResponseChainEntry}
    (h : Tracked core s ctx listed) :
    Follows core ctx (listed ++ acceptedIds core s (.responseChainEntry arg))
      (handleResponseChainEntry cfg core arg s ctx) := by
  simp only [handleResponseChainEntry, acceptedIds]
  by_cases haccepts : acceptsChainEntry core arg s = true
  · simp only [haccepts, Bool.not_true, Bool.false_eq_true, if_false, if_true]
    have htracked : Tracked core s (recordChainEntry cfg core arg s ctx) (listed ++ arg.blockIds) := by
      intro id hid
      by_cases hhave : core.haveBlock s id = true
      · exact .inl hhave
      rcases List.mem_append.mp hid with hid | hid
      · rcases h id hid with h | h | h
        · exact .inl h
        · exact .inr (.inl (List.mem_append_left _ h))
        · exact .inr (.inr h)
      · refine .inr (.inl (List.mem_append_right _ (List.mem_filter.mpr ⟨hid, ?_⟩)))
        simpa using hhave
    exact .inr (.inr (requestMissingObjects_tracked cfg false htracked))
  · simp only [Bool.eq_false_iff.mpr haccepts, Bool.not_false, if_true]
    exact .inl ⟨rfl, rfl⟩

theorem handle_follows (laws : CoreLaws crypto core Inv Heard) {event : ConnectionEvent}
    {r : Handled σ} (hs : Inv s) (hheard : HeardEvent core Heard s event)
    (hstate : ctx.state = .synchronizing) (h : Tracked core s ctx listed)
    (hr : handle crypto cfg core event s ctx = .ok r) :
    Inv r.core ∧ Follows core ctx (listed ++ acceptedIds core s event) r := by
  cases event with
  | responseGetObjects arg =>
    simp only [acceptedIds, List.append_nil]
    exact handleResponseGetObjects_follows laws hs hheard h hr
  | responseChainEntry arg =>
    cases hr
    refine ⟨?_, handleResponseChainEntry_follows h⟩
    simp only [handleResponseChainEntry]
    split_ifs <;> exact hs
  | syncData hshd isInital =>
    cases hr
    simp only [acceptedIds, List.append_nil]
    rw [processPayloadSyncData, if_neg (by simp [hstate]),
      if_pos hstate]
    exact ⟨hs, .same h rfl⟩
  | callback =>
    cases hr
    simp only [acceptedIds, List.append_nil, onCallback]
    split_ifs
    · exact ⟨hs, .same h rfl⟩
    · exact ⟨hs, .same h rfl⟩
  | notifyNewBlock b =>
    rw [handle, handleNotifyNewBlock, if_pos (by simp [hstate])] at hr
    cases hr
    simp only [acceptedIds, List.append_nil]
    split_ifs
    · exact ⟨hs, .same h rfl⟩
    · exact ⟨hs, .same h rfl⟩
  | notifyNewTransactions txs =>
    rw [handle, handleNotifyNewTransactions, if_pos (by simp [hstate])] at hr
    cases hr
    simp only [acceptedIds, List.append_nil]
    exact ⟨hs, .same h rfl⟩
  | notifyNewSignedHash entry =>
    cases hr
    simp only [acceptedIds, List.append_nil, handleNotifyNewSignedHash]
    cases hadd : core.addSignedLonghash entry s with
    | none => exact ⟨hs, .same h rfl⟩
    | some s₁ =>
      obtain ⟨hs₁, hkeeps⟩ := laws.signed hs hadd
      exact ⟨hs₁, .same (h.keeps hkeeps) rfl⟩
  | requestGetObjects =>
    cases hr
    simp only [acceptedIds, List.append_nil]
    exact ⟨hs, .same h rfl⟩
  | requestChain blockIds =>
    cases hr
    simp only [acceptedIds, List.append_nil]
    exact ⟨hs, .same h rfl⟩

theorem handleNotifyNewBlock_inv (laws : CoreLaws crypto core Inv Heard) {b : BlockCompleteBlobs}
    {r : Handled σ} (hs : Inv s) (hr : handleNotifyNewBlock cfg core b s ctx = .ok r) :
    Inv r.core := by
  rw [handleNotifyNewBlock] at hr
  by_cases hstate : ctx.state ≠ .normal
  · rw [if_pos hstate] at hr
    cases hr
    exact hs
  rw [if_neg hstate] at hr
  obtain ⟨⟨added, s₁⟩, htxs, hr⟩ := bind_eq_ok_iff.mp hr
  have hs₁ := (processTxs_keeps laws hs htxs).1
  cases added with
  | false =>
    cases hr
    exact hs₁
  | true =>
    obtain ⟨⟨bvc, s₂⟩, hblock, hr⟩ := bind_eq_ok_iff.mp hr
    have hs₂ := (laws.block hs₁ hblock).1
    dsimp only at hr
    split_ifs at hr <;> cases hr <;> exact hs₂

theorem handle_inv (laws : CoreLaws crypto core Inv Heard) {event : ConnectionEvent}
    {r : Handled σ} (hs : Inv s) (hheard : HeardEvent core Heard s event)
    (hr : handle crypto cfg core event s ctx = .ok r) : Inv r.core := by
  cases event with
  | responseGetObjects arg =>
    have hnone : Tracked core s ctx [] := fun _ h => (nomatch h)
    exact (handleResponseGetObjects_follows laws hs hheard hnone hr).1
  | responseChainEntry arg =>
    cases hr
    simp only [handleResponseChainEntry]
    split_ifs <;> exact hs
  | syncData hshd isInital =>
    cases hr
    simp only [processPayloadSyncData]
    split_ifs <;> exact hs
  | callback =>
    cases hr
    simp only [onCallback]
    split_ifs <;> exact hs
  | notifyNewBlock b => exact handleNotifyNewBlock_inv laws hs hr
  | notifyNewTransactions txs =>
    rw [handle, handleNotifyNewTransactions] at hr
    split_ifs at hr with hstate
    · cases hr
      exact hs
    · obtain ⟨⟨handled, s₁⟩, htxs, hr⟩ := bind_eq_ok_iff.mp hr
      cases hr
      exact (processTxs_keeps laws hs htxs).1
  | notifyNewSignedHash entry =>
    cases hr
    simp only [handleNotifyNewSignedHash]
    cases hadd : core.addSignedLonghash entry s with
    | none => exact hs
    | some s₁ => exact (laws.signed hs hadd).1
  | requestGetObjects =>
    cases hr
    exact hs
  | requestChain blockIds =>
    cases hr
    exact hs

end Tracking

end Pebblecoin.ProtocolHandler
