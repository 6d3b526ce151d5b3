import Pebblecoin.StuckBlocks
import Pebblecoin.AlternativeWindows

/-!
What stands between the stored branches and the checkpoints that the main chain has
reached.
-/

namespace Pebblecoin.Storage

open Containers Control

variable {env : Env} {now : UInt64} {V : Hash → Transaction → Prop} {D : Block → Prop}

/-- The main chain has no checkpoint from height `n` on. -/
def Clear (env : Env) (n : Nat) (s : Storage) : Prop :=
  ∀ c, n ≤ c → c < s.entries.length → env.checkpoints.find? c = none

/-- Up to every checkpoint that is reached the main chain stays as it is. -/
def Final (env : Env) (s s' : Storage) : Prop :=
  ∀ c, env.checkpoints.find? c ≠ none → c < s.entries.length →
    s'.entries.take (c + 1) = s.entries.take (c + 1)

/-- A stored chain whose blocks from position `split` on are alternative ones can never
become the main chain, because a block of the main chain that it has to replace is
stuck. -/
structure Barrier (env : Env) (chain : List (Hash × Block)) (split b : Nat) (s : Storage) : Prop where
  lineage : s.Lineage chain
  stuck : StuckAt env b s
  split_le : split ≤ b
  split_lt : split < chain.length
  alternatives : ∀ i p, split ≤ i → chain[i]? = some p → s.alternativeChainEntries p.1 ≠ none

/-- Every alternative block at the height of a checkpoint is the expected one, but the
main chain has not got there and a barrier keeps the block from leading it there. -/
structure Guarded (env : Env) (s : Storage) : Prop where
  expected : ∀ id bent, s.alternativeChainEntries id = some bent → ∀ id',
    env.checkpoints.find? bent.height = some id' → id' = id
  unreached : ∀ id bent, s.alternativeChainEntries id = some bent →
    env.checkpoints.find? bent.height ≠ none → s.entries.length ≤ bent.height
  blocked : ∀ id bent, s.alternativeChainEntries id = some bent →
    env.checkpoints.find? bent.height ≠ none →
      ∃ chain split b, chain.getLast?.map Prod.fst = some id ∧ Barrier env chain split b s

/-- What happens to a storage without touching what is final or what is barred. -/
structure Held (env : Env) (s s' : Storage) : Prop where
  final : Final env s s'
  barriers : ∀ chain split b, Barrier env chain split b s → Barrier env chain split b s'
  alternatives : ∀ id bent, s'.alternativeChainEntries id = some bent →
    env.checkpoints.find? bent.height ≠ none → s.alternativeChainEntries id = some bent

/-- No further checkpoint is reached either. -/
structure Kept (env : Env) (s s' : Storage) : Prop extends Held env s s' where
  clear : ∀ n, Clear env n s → Clear env n s'

section Kept

variable {s s' s'' : Storage}

theorem Final.lt (h : Final env s s') {c : Nat} (hc : env.checkpoints.find? c ≠ none)
    (hlt : c < s.entries.length) : c < s'.entries.length := by
  have hlength := congrArg List.length (h c hc hlt)
  simp only [List.length_take] at hlength
  omega

theorem Final.trans (h : Final env s s') (h' : Final env s' s'') : Final env s s'' :=
  fun c hc hlt => (h' c hc (h.lt hc hlt)).trans (h c hc hlt)

theorem Held.refl (s : Storage) : Held env s s :=
  ⟨fun _ _ _ => rfl, fun _ _ _ h => h, fun _ _ h _ => h⟩

theorem Held.trans (h : Held env s s') (h' : Held env s' s'') : Held env s s'' :=
  ⟨h.final.trans h'.final, fun chain split b hb => h'.barriers _ _ _ (h.barriers chain split b hb),
    fun id bent hbent hc => h.alternatives id bent (h'.alternatives id bent hbent hc) hc⟩

theorem Kept.refl (s : Storage) : Kept env s s := ⟨.refl s, fun _ h => h⟩

theorem Kept.trans (h : Kept env s s') (h' : Kept env s' s'') : Kept env s s'' :=
  ⟨h.toHeld.trans h'.toHeld, fun n hn => h'.clear n (h.clear n hn)⟩

theorem Clear.mono {n m : Nat} (h : Clear env n s) (hnm : n ≤ m) : Clear env m s :=
  fun c hc hlt => h c (hnm.trans hc) hlt

theorem clear_length (env : Env) (s : Storage) : Clear env s.entries.length s :=
  fun _ hc hlt => absurd hlt (Nat.not_lt.mpr hc)

theorem Guarded.keep (h : Guarded env s)
    (halt : ∀ id bent, s'.alternativeChainEntries id = some bent →
      env.checkpoints.find? bent.height ≠ none →
      s.alternativeChainEntries id = some bent ∧ s'.entries.length ≤ bent.height)
    (hbarriers : ∀ chain split b, Barrier env chain split b s → Barrier env chain split b s') :
    Guarded env s' := by
  refine ⟨fun id bent hbent id' hid' => ?_, fun id bent hbent hc => (halt id bent hbent hc).2,
    fun id bent hbent hc => ?_⟩
  · exact h.expected id bent (halt id bent hbent (by simp [hid'])).1 id' hid'
  · obtain ⟨chain, split, b, hlast, hbarrier⟩ := h.blocked id bent (halt id bent hbent hc).1 hc
    exact ⟨chain, split, b, hlast, hbarriers _ _ _ hbarrier⟩

theorem Guarded.kept (h : Guarded env s) (hkept : Kept env s s') : Guarded env s' := by
  refine h.keep (fun id bent hbent hc => ?_) hkept.barriers
  have hold := hkept.alternatives id bent hbent hc
  refine ⟨hold, ?_⟩
  by_contra hlt
  exact hc (hkept.clear _ (clear_length env s) bent.height (h.unreached id bent hold hc)
    (Nat.lt_of_not_le hlt))

end Kept

/-- `V` tells which ids the node may give to a transaction; the hash of one is no id of
another. -/
structure Labels (env : Env) (V : Hash → Transaction → Prop) (D : Block → Prop) : Prop where
  rehashes : Rehashes env.crypto V
  apart : IdsApart env.crypto V
  offered : ∀ bl, D bl → V ((getTransactionHash env.crypto bl.minerTx).getD nullHash) bl.minerTx

section Steps

variable {s s' : Storage}

theorem Labels.regular (hl : Labels env V D) (h : Regular env V s)
    (hrun : Actions env D now s s') : Regular env V s' :=
  h.actions hl.rehashes hl.offered hrun

theorem Barrier.actions {chain : List (Hash × Block)} {split b : Nat} (hl : Labels env V D)
    (h : Regular env V s) (hrun : Actions env D now s s') (hb : Barrier env chain split b s)
    (halt : ∀ i p, split ≤ i → chain[i]? = some p → s'.alternativeChainEntries p.1 ≠ none) :
    Barrier env chain split b s' :=
  ⟨hb.lineage.grow (Actions.bodiesGrow hrun h.sound),
    hb.stuck.actions h hl.rehashes hl.apart hl.offered hrun, hb.split_le, hb.split_lt, halt⟩

theorem Held.of_chainActions (hl : Labels env V D) (h : Regular env V s)
    (hrun : ChainActions env D now s s') (hfinal : Final env s s') : Held env s s' := by
  refine ⟨hfinal, fun chain split b hb => hb.actions hl h hrun.actions ?_, fun id bent hbent _ => ?_⟩
  · rw [hrun.alternatives]
    exact hb.alternatives
  · rwa [hrun.alternatives] at hbent

theorem Kept.of_pop {popped : Bool} (hl : Labels env V D) (h : Regular env V s)
    (hclear : Clear env (s.entries.length - 1) s)
    (hpop : s.popBlockFromBlockchain env now = .ok (popped, s')) : Kept env s s' := by
  have hframe := PopFrame.of_pop hpop
  have hentries : s'.entries = s.entries ∨ s'.entries = s.entries.dropLast := by
    cases popped with
    | false => exact Or.inl (hframe.failed rfl).1
    | true => exact Or.inr (hframe.done rfl).2.1
  have hlength : s'.entries.length ≤ s.entries.length := by
    rcases hentries with heq | heq
    · rw [heq]
    · rw [heq, List.length_dropLast]
      omega
  refine ⟨.of_chainActions (D := D) hl h (.of_pop hpop) fun c hc hlt => ?_,
    fun n hn c hc hlt => hn c hc (by omega)⟩
  rcases hentries with heq | heq
  · rw [heq]
  · have hbelow : c < s.entries.length - 1 := by
      by_contra hge
      exact hc (hclear c (Nat.le_of_not_lt hge) hlt)
    rw [heq, List.dropLast_eq_take, List.take_take, Nat.min_eq_left (by omega)]

theorem handleBlockToMainChain_held {bl : Block} {id : Hash} {exit : HandleExit}
    (hl : Labels env V D) (h : Regular env V s) (hoffered : s.Offered D bl id)
    (hid : getBlockHash env.crypto bl = some id) (hfits : s.Fits bl id)
    (hrun : s.handleBlockToMainChain env now bl id = .ok (exit, s')) :
    Held env s s' ∧ (exit ≠ .added → s'.entries = s.entries) ∧
      (exit = .added → s'.entries.length = s.entries.length + 1 ∧
        (getBlockHeight bl).toNat = s.entries.length ∧ s.checkProof env bl id = .ok none) ∧
      ((exit = .added → env.checkpoints.find? s.entries.length = none) → Kept env s s') := by
  have hactions := ChainActions.of_handle (D := D) h.sound hoffered hid hfits hrun
  rcases h.sound.handle_cases hrun with ⟨taken, l, fee, base, prev, rfl, happ⟩ | ⟨hexit, hrej⟩
  · obtain ⟨-, -, -, -, hproof, hpre⟩ := checkBlockHeader_eq_none happ.header
    have hlength : s'.entries.length = s.entries.length + 1 := by
      rw [happ.entries, List.length_append, List.length_singleton]
    have hheld : Held env s s' := by
      refine .of_chainActions hl h hactions fun c _ hlt => ?_
      rw [happ.entries, List.take_append_of_le_length (by omega)]
    refine ⟨hheld, fun hne => absurd rfl hne,
      fun _ => ⟨hlength, getBlockHeight_of_prevalidate hpre, hproof⟩,
      fun hclear => ⟨hheld, fun n hn c hc hlt => ?_⟩⟩
    rcases Nat.lt_or_ge c s.entries.length with hold | hnew
    · exact hn c hc hold
    · rw [show c = s.entries.length by omega]
      exact hclear rfl
  · have hentries : s'.entries = s.entries := by rw [hrej.frame]
    have hheld : Held env s s' :=
      .of_chainActions hl h hactions fun c _ _ => by rw [hentries]
    refine ⟨hheld, fun _ => hentries, fun hadded => absurd hadded hexit, fun _ => ⟨hheld, ?_⟩⟩
    intro n hn c hc hlt
    exact hn c hc (by rwa [hentries] at hlt)

end Steps

/-- Stored blocks that belong at heights without a checkpoint. -/
structure OffCheckpoints (env : Env) (bs : List Block) (s : Storage) : Prop where
  stored : StoredBlocks env bs s
  heights : ∀ b ∈ bs, env.checkpoints.find? (getBlockHeight b).toNat = none

theorem OffCheckpoints.grow {bs : List Block} {s s' : Storage} (h : OffCheckpoints env bs s)
    (hgrow : BodiesGrow s s') : OffCheckpoints env bs s' :=
  ⟨h.stored.grow hgrow, h.heights⟩

theorem disconnectBlocks_kept (hl : Labels env V D) (n : Nat) {split : Nat} {popped : List Block}
    {s : Storage} (h : Regular env V s) (hpos : 0 < split) (hn : s.entries.length = split + n)
    (hclear : Clear env split s) (hpopped : OffCheckpoints env popped s) :
    Returns (s.disconnectBlocks env now n popped) fun r => ChainActions env D now s r.2 ∧
      Kept env s r.2 ∧ (r.1 = none → ∃ b, split ≤ b ∧ StuckAt env b r.2) ∧
      ∀ bs, r.1 = some bs → r.2.entries.length = split ∧ OffCheckpoints env bs r.2 := by
  induction n generalizing s popped with
  | zero =>
    refine Returns.ok_iff.mpr ⟨.refl s, .refl s, by simp, fun bs hbs => ⟨by simpa using hn, ?_⟩⟩
    exact Option.some.inj hbs ▸ hpopped
  | succ n ih =>
    rw [disconnectBlocks]
    split
    · exact Returns.error
    rename_i bent hbent
    refine Returns.bind_ok fun b hb => ?_
    have hbody := getBlockByHash_eq_ok (reading_eq_ok_iff.mp hb)
    refine Returns.bind_ok fun r hr => ?_
    obtain ⟨r, s₁⟩ := r
    have hone : ChainActions env D now s s₁ := .of_pop hr
    have hkept : Kept env s s₁ := .of_pop hl h (hclear.mono (by omega)) hr
    have hframe := PopFrame.of_pop hr
    cases r with
    | false =>
      have hstuck := StuckAt.of_pop_failed h hl.rehashes hl.apart (by omega) hr
      refine Returns.ok_iff.mpr ⟨hone, hkept, fun _ => ⟨_, ?_, hstuck⟩, by simp⟩
      rw [(hframe.failed rfl).1]
      omega
    | true =>
      have hlength : s₁.entries.length = split + n := by
        rw [(hframe.done rfl).2.1, List.length_dropLast]
        omega
      have hpopped₁ : OffCheckpoints env (b :: popped) s₁ := by
        refine OffCheckpoints.grow ⟨fun c hc => ?_, fun c hc => ?_⟩ (hone.bodiesGrow h.sound)
        · rcases List.mem_cons.mp hc with rfl | hc
          · exact ⟨bent.hash, h.sound.hashes _ _ hbody, hbody⟩
          · exact hpopped.stored c hc
        · rcases List.mem_cons.mp hc with rfl | hc
          · rw [List.getLast?_eq_getElem?] at hbent
            obtain ⟨b', hb', hheight⟩ := h.sound.chain.bodies _ bent hbent
            obtain rfl := Option.some.inj (hbody.symm.trans hb')
            exact hclear _ (by omega) (by omega)
          · exact hpopped.heights c hc
      refine (ih (hl.regular h hone.actions) hlength (hkept.clear _ hclear) hpopped₁).mono
        fun r' hr' => ?_
      exact ⟨hone.trans hr'.1, hkept.trans hr'.2.1, hr'.2.2⟩

theorem popBlocks_kept (hl : Labels env V D) (n : Nat) {split : Nat} {s : Storage}
    (h : Regular env V s) (hn : split + n ≤ s.entries.length ∨ n = 0)
    (hclear : Clear env split s) :
    Returns (s.popBlocks env now n) fun r => ChainActions env D now s r.2 ∧ Kept env s r.2 := by
  induction n generalizing s with
  | zero => exact Returns.ok_iff.mpr ⟨.refl s, .refl s⟩
  | succ n ih =>
    rw [popBlocks]
    refine Returns.bind_ok fun r hr => ?_
    obtain ⟨r, s₁⟩ := r
    have hone : ChainActions env D now s s₁ := .of_pop hr
    have hkept : Kept env s s₁ := .of_pop hl h (hclear.mono (by omega)) hr
    cases r with
    | false => exact Returns.ok_iff.mpr ⟨hone, hkept⟩
    | true =>
      have hlength : s₁.entries.length = s.entries.length - 1 := by
        rw [((PopFrame.of_pop hr).done rfl).2.1, List.length_dropLast]
      refine (ih (hl.regular h hone.actions) (by omega) (hkept.clear _ hclear)).mono
        fun r' hr' => ?_
      exact ⟨hone.trans hr'.1, hkept.trans hr'.2⟩

theorem connectBlocks_kept (hl : Labels env V D) {bs : List Block} {s : Storage}
    (h : Regular env V s) (hbs : OffCheckpoints env bs s) :
    Returns (s.connectBlocks env now bs) fun r => ChainActions env D now s r.2 ∧ Kept env s r.2 := by
  induction bs generalizing s with
  | nil => exact Returns.ok_iff.mpr ⟨.refl s, .refl s⟩
  | cons b bs ih =>
    obtain ⟨id, hid, hbody⟩ := hbs.stored b (by simp)
    rw [connectBlocks, hid, Option.getD_some]
    refine Returns.bind_ok fun r hr => ?_
    obtain ⟨exit, s₁⟩ := r
    have hone := ChainActions.of_handle (D := D) h.sound (Or.inr hbody) hid
      (fits_of_stored hbody) hr
    obtain ⟨-, -, hadded, hkept⟩ :=
      handleBlockToMainChain_held hl h (Or.inr hbody) hid (fits_of_stored hbody) hr
    have hkept : Kept env s s₁ := hkept fun hexit => by
      rw [← (hadded hexit).2.1]
      exact hbs.heights b (by simp)
    dsimp only
    split
    · refine (ih (hl.regular h hone.actions) ?_).mono
        fun r' hr' => ⟨hone.trans hr'.1, hkept.trans hr'.2⟩
      exact OffCheckpoints.grow ⟨fun c hc => hbs.stored c (by simp [hc]),
        fun c hc => hbs.heights c (by simp [hc])⟩ (hone.bodiesGrow h.sound)
    · exact Returns.ok_iff.mpr ⟨hone, hkept⟩

theorem rollbackBlockchainSwitching_kept (hl : Labels env V D) {original : List Block}
    {split : Nat} {s : Storage} (h : Regular env V s) (hclear : Clear env split s)
    (horiginal : OffCheckpoints env original s) :
    Returns (s.rollbackBlockchainSwitching env now original split) fun r =>
      ChainActions env D now s r.2 ∧ Kept env s r.2 := by
  refine Returns.bind (popBlocks_kept hl _ h (by omega) hclear) fun r hr => ?_
  obtain ⟨r, s₁⟩ := r
  obtain ⟨hone, hkept⟩ := hr
  dsimp only at hone hkept ⊢
  split
  · refine (connectBlocks_kept hl (hl.regular h hone.actions)
      (horiginal.grow (hone.bodiesGrow h.sound))).mono fun r' hr' => ?_
    exact ⟨hone.trans hr'.1, hkept.trans hr'.2⟩
  · exact Returns.ok_iff.mpr ⟨hone, hkept⟩

/-- None of the ids belongs to a chain that is barred. -/
def Avoids (env : Env) (s : Storage) (ids : List Hash) : Prop :=
  ∀ chain split b, Barrier env chain split b s → ∀ i p, split ≤ i → chain[i]? = some p → p.1 ∉ ids

section Forget

variable {s t t' : Storage} {ids : List Hash}

theorem Held.forget (hl : Labels env V D) (h : Held env s t) (hreg : Regular env V t)
    (havoid : Avoids env s ids) (hrun : Actions env D now t t') (hentries : t'.entries = t.entries)
    (halt : ∀ k, t'.alternativeChainEntries k =
      if k ∈ ids then none else t.alternativeChainEntries k) : Held env s t' := by
  refine ⟨fun c hc hlt => ?_, fun chain split b hb => ?_, fun id bent hbent hc => ?_⟩
  · rw [hentries]
    exact h.final c hc hlt
  · have hb' := h.barriers chain split b hb
    refine hb'.actions hl hreg hrun fun i p hi hp => ?_
    rw [halt, if_neg (havoid chain split b hb i p hi hp)]
    exact hb'.alternatives i p hi hp
  · rw [halt] at hbent
    split at hbent
    · cases hbent
    · exact h.alternatives id bent hbent hc

theorem Kept.forget (hl : Labels env V D) (h : Kept env s t) (hreg : Regular env V t)
    (havoid : Avoids env s ids) (hrun : Actions env D now t t') (hentries : t'.entries = t.entries)
    (halt : ∀ k, t'.alternativeChainEntries k =
      if k ∈ ids then none else t.alternativeChainEntries k) : Kept env s t' := by
  refine ⟨h.toHeld.forget hl hreg havoid hrun hentries halt, fun n hn c hc hlt => ?_⟩
  rw [hentries] at hlt
  exact h.clear n hn c hc hlt

end Forget

theorem connectBranch_kept (hl : Labels env V D) {disconnected : List Block} {split : Nat}
    {ids : List Hash} {s t : Storage} (h : Regular env V t) (hkept : Kept env s t)
    (hclear : Clear env split t) (hdisc : OffCheckpoints env disconnected t)
    (havoid : Avoids env s ids)
    (hgap : ∀ c, t.entries.length ≤ c → c + 1 < t.entries.length + ids.length →
      env.checkpoints.find? c = none) :
    Returns (t.connectBranch env now disconnected split ids) fun r =>
      (r.1 = false → Kept env s r.2 ∧
        ∀ last, ids.getLast? = some last → r.2.alternativeChainEntries last = none) ∧
      (r.1 = true → Held env s r.2 ∧ r.2.entries.length = t.entries.length + ids.length ∧
        ((∀ c, t.entries.length ≤ c → c < t.entries.length + ids.length →
          env.checkpoints.find? c = none) → Kept env s r.2)) := by
  induction ids generalizing t with
  | nil => exact Returns.ok_iff.mpr ⟨by simp, fun _ => ⟨hkept.toHeld, rfl, fun _ => hkept⟩⟩
  | cons id ids ih =>
    rw [connectBranch]
    refine Returns.bind_ok fun bent hbent => ?_
    refine Returns.bind_ok fun bl hbl => ?_
    have hbent := getAlternativeEntry_eq_ok (reading_eq_ok_iff.mp hbent)
    have hbody := getBlockByHash_eq_ok (reading_eq_ok_iff.mp hbl)
    have hid := h.sound.hashes id bl hbody
    dsimp only
    rw [hid, Option.getD_some]
    refine Returns.bind_ok fun r hr => ?_
    obtain ⟨exit, t₁⟩ := r
    have hone := ChainActions.of_handle (D := D) h.sound (Or.inr hbody) hid
      (fits_of_stored hbody) hr
    have h₁ := hl.regular h hone.actions
    have hdisc₁ := hdisc.grow (hone.bodiesGrow h.sound)
    obtain ⟨hheld, -, hadded, hkeep⟩ :=
      handleBlockToMainChain_held hl h (Or.inr hbody) hid (fits_of_stored hbody) hr
    dsimp only
    split
    · rename_i hexit
      have hlength := (hadded hexit).1
      cases ids with
      | nil =>
        -- the last block may reach a checkpoint
        refine Returns.ok_iff.mpr ⟨by simp, fun _ => ⟨hkept.toHeld.trans hheld, hlength, ?_⟩⟩
        exact fun hnone => hkept.trans (hkeep fun _ => hnone _ (Nat.le_refl _) (by simp))
      | cons id' ids =>
        have hkept₁ : Kept env t t₁ :=
          hkeep fun _ => hgap _ (Nat.le_refl _) (by simp only [List.length_cons]; omega)
        refine (ih h₁ (hkept.trans hkept₁) (hkept₁.clear _ hclear) hdisc₁
          (fun chain split b hb i p hi hp hmem =>
            havoid chain split b hb i p hi hp (List.mem_cons_of_mem _ hmem))
          (fun c hc hlt => hgap c (by omega) ?_)).mono fun r' hr' => ⟨fun hfalse => ?_, fun htrue => ?_⟩
        · simp only [List.length_cons] at hlt ⊢
          omega
        · exact hr'.1 hfalse
        · obtain ⟨hheld', hlength', hkept'⟩ := hr'.2 htrue
          simp only [List.length_cons] at hlength' ⊢
          refine ⟨hheld', by omega, fun hnone => hkept' fun c hc hlt => hnone c (by omega) ?_⟩
          simp only [List.length_cons] at hlt
          omega
    · rename_i hexit
      have hkept₁ : Kept env t t₁ := hkeep fun hadd => absurd hadd hexit
      refine Returns.bind (rollbackBlockchainSwitching_kept hl h₁ (hkept₁.clear _ hclear) hdisc₁)
        fun r' hr' => ?_
      obtain ⟨rolledBack, t₂⟩ := r'
      obtain ⟨hback, hkept₂⟩ := hr'
      have hrun := hone.trans hback
      have hbody₂ := hrun.bodiesGrow h.sound id bl hbody
      have hbent₂ := (congrFun hrun.alternatives id).trans hbent
      have h₂ := hl.regular h hrun.actions
      set t₃ : Storage := { t₂ with log := .switchFailed id rolledBack :: t₂.log }
      have hmark := markBranchInvalid_eq (s := t₃) (id :: ids)
        (h₂.sound.alternatives id bent hbent₂).1 hbody₂
      have hactions : Actions env D now t₂ (t₃.markBranchInvalid bent bl id (id :: ids)) :=
        .tail (.single (.logSwitchFailed id rolledBack)) (.markInvalid (id :: ids) hbody₂ hbent₂)
      refine Returns.ok_iff.mpr ⟨fun _ => ⟨?_, fun last hlast => ?_⟩, by simp⟩
      · refine ((hkept.trans hkept₁).trans hkept₂).forget hl h₂ havoid hactions ?_ fun k => ?_
        · rw [hmark]
        · rw [hmark]
      · rw [hmark]
        exact if_pos (List.mem_of_getLast? hlast)

end Pebblecoin.Storage
