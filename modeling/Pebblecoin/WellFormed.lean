import Pebblecoin.PopBlock
import Pebblecoin.TxInvariants

/-!
Adding and popping blocks keeps the chain of blocks in order.
-/

namespace Pebblecoin

open Control

namespace Storage

variable {env : Env} {now : UInt64} {bl : Block} {id : Hash}

variable {s s' : Storage} {exit : HandleExit} {popped : Bool}

/-- The body of the block, if it is stored, is this block. -/
def Fits (bl : Block) (id : Hash) (s : Storage) : Prop :=
  ∀ b, s.blocksByHash id = some b → b = bl

theorem Fits.update (h : s.Fits bl id) {k : Hash} {b : Block} (hb : s.blocksByHash k = some b) :
    Function.update s.blocksByHash id (some bl) k = some b := by
  by_cases hk : k = id
  · subst hk
    rw [Function.update_self, h b hb]
  · rw [Function.update_of_ne hk, hb]

theorem Rejected.of_handle (hs : s.WellFormed) (hexit : exit ≠ .added)
    (h : s.handleBlockToMainChain env now bl id = .ok (exit, s')) : Rejected env now bl id exit s s' :=
  (handleBlockToMainChain_rejected bl id hs.vetted hs.popping).out _ h hexit

theorem WellFormed.handle_cases (hs : s.WellFormed)
    (h : s.handleBlockToMainChain env now bl id = .ok (exit, s')) :
    (∃ taken l fee base prev, exit = .added ∧ Appended env now bl id taken l fee base prev s s') ∨
      exit ≠ .added ∧ Rejected env now bl id exit s s' := by
  by_cases hexit : exit = .added
  · subst hexit
    obtain ⟨taken, l, fee, base, prev, happ⟩ := hs.appended h
    exact Or.inl ⟨taken, l, fee, base, prev, rfl, happ⟩
  · exact Or.inr ⟨hexit, .of_handle hs hexit h⟩

theorem Rejected.keepsBodies (h : Rejected env now bl id exit s s') (hfits : s.Fits bl id)
    {k : Hash} {b : Block} (hb : s.blocksByHash k = some b) : s'.blocksByHash k = some b := by
  cases h.stored with
  | nowhere hblocks _ => rwa [hblocks]
  | invalid _ _ hblocks _ => rw [hblocks]; exact hfits.update hb
  | indexed _ _ hblocks _ => rw [hblocks]; exact hfits.update hb

theorem Rejected.wellFormed (h : Rejected env now bl id exit s s') (hfits : s.Fits bl id)
    (hs : s.WellFormed) (hvetted : s'.Vetted) : s'.WellFormed := by
  have hentries : s'.entries = s.entries := by rw [h.frame]
  have hindex : s'.blocksIndex = s.blocksIndex := by rw [h.frame]
  refine ⟨by rw [h.frame]; exact hs.popping, hvetted, ⟨?_, ?_⟩, by rw [hentries]; exact hs.nonempty⟩
  · rw [hentries, hindex]
    exact hs.chain.indexed
  · intro i bent hbent
    rw [hentries] at hbent
    obtain ⟨b, hb, hheight⟩ := hs.chain.bodies i bent hbent
    exact ⟨b, h.keepsBodies hfits hb, hheight⟩

theorem getBlockHeight_of_prevalidate {height : Nat}
    (h : prevalidateMinerTransaction bl height = true) : (getBlockHeight bl).toNat = height := by
  obtain ⟨g, hvin, hg⟩ := prevalidateMinerTransaction_vin h
  simp [getBlockHeight, hvin, hg]

theorem Appended.chainOk {taken : List Taken} {l : Ledger} {fee base : UInt64} {prev : Option Block}
    (h : Appended env now bl id taken l fee base prev s s') (hs : s.ChainOk) : s'.ChainOk := by
  obtain ⟨bent, hhash, hentries⟩ : ∃ bent : BlockchainEntry, bent.hash = id ∧
      s'.entries = s.entries ++ [bent] := ⟨_, rfl, h.entries⟩
  obtain ⟨-, -, -, -, -, hpre⟩ := checkBlockHeader_eq_none h.header
  -- an entry is an old one, with another hash, or the new one
  have hcases : ∀ i e, s'.entries[i]? = some e →
      s.entries[i]? = some e ∧ e.hash ≠ id ∨ i = s.entries.length ∧ e.hash = id := by
    intro i e he
    rw [hentries] at he
    rcases lt_or_ge i s.entries.length with hlt | hge
    · rw [List.getElem?_append_left hlt] at he
      exact Or.inl ⟨he, hs.ne_of_fresh h.fresh (List.mem_of_getElem? he)⟩
    · rw [List.getElem?_append_right hge, List.getElem?_singleton] at he
      split_ifs at he with hzero
      cases he
      exact Or.inr ⟨by omega, hhash⟩
  constructor
  · intro i e he
    rw [h.index]
    rcases hcases i e he with ⟨he, hne⟩ | ⟨rfl, hid⟩
    · rw [Function.update_of_ne hne]
      exact hs.indexed i e he
    · rw [hid, Function.update_self]
  · intro i e he
    rw [h.blocks]
    rcases hcases i e he with ⟨he, hne⟩ | ⟨rfl, hid⟩
    · rw [Function.update_of_ne hne]
      exact hs.bodies i e he
    · rw [hid, Function.update_self]
      exact ⟨bl, rfl, getBlockHeight_of_prevalidate hpre⟩

theorem handleBlockToMainChain_wellFormed (hfits : s.Fits bl id) (hs : s.WellFormed) :
    Returns (s.handleBlockToMainChain env now bl id) fun r => r.2.WellFormed := by
  constructor
  rintro ⟨exit, s'⟩ hr
  have hvetted := (handleBlockToMainChain_vetted bl id hs.vetted).out _ hr
  rcases hs.handle_cases hr with ⟨taken, l, fee, base, prev, -, h⟩ | ⟨-, hrej⟩
  · exact ⟨h.popping.trans hs.popping, hvetted, h.chainOk hs.chain, by simp [h.entries]⟩
  · exact hrej.wellFormed hfits hs hvetted

/-- What popping does apart from the ledger, the pool and the top delegates. -/
structure PopFrame (popped : Bool) (s s' : Storage) : Prop where
  frame : s' = { s with
    entries := s'.entries
    blocksIndex := s'.blocksIndex
    ledger := s'.ledger
    topDelegates := s'.topDelegates
    poppingBlock := s'.poppingBlock
    pool := s'.pool
    log := s'.log }
  failed : popped = false → s'.entries = s.entries ∧ s'.blocksIndex = s.blocksIndex
  done : popped = true → 2 ≤ s.entries.length ∧ s'.entries = s.entries.dropLast ∧
    ∃ bent, s.entries.getLast? = some bent ∧
      s'.blocksIndex = Function.update s.blocksIndex bent.hash none
  popping : s.poppingBlock = false → s'.poppingBlock = false
  log : s.log ⊆ s'.log

theorem uncountStatistics_frame (bl : Block) (s : Storage) :
    Returns (s.uncountStatistics bl) fun s' => ∃ ds log, s.log ⊆ log ∧
      s' = { s with ledger := { s.ledger with delegates := ds }, log := log } := by
  refine Returns.bind_const fun prev => ?_
  cases prev with
  | none => exact Returns.ok_iff.mpr ⟨s.ledger.delegates, s.log, List.Subset.refl _, rfl⟩
  | some b =>
    refine Returns.bind_const fun fees => Returns.bind_const fun missed => ?_
    exact Returns.ok_iff.mpr ⟨_, _, List.subset_cons_self _ _, rfl⟩

/-- The ways a pop ends, with what each of its steps has returned. -/
inductive PopSteps (env : Env) (now : UInt64) (s : Storage) : Bool × Storage → Prop
  | short (hlength : s.entries.length < 2) : PopSteps env now s (false, s)
  | stuck {bent : BlockchainEntry} {bl : Block} {s₁ : Storage} (hlength : 2 ≤ s.entries.length)
      (hbent : s.entries.getLast? = some bent) (hbody : s.blocksByHash bent.hash = some bl)
      (hpurge : purgeBlockDataFromBlockchain env now bl bl.txHashes.length
        { s with poppingBlock := true } = .ok (false, s₁)) :
      PopSteps env now s (false, { s₁ with poppingBlock := false })
  | purged {bent : BlockchainEntry} {bl : Block} {s₁ s₂ : Storage}
      (hlength : 2 ≤ s.entries.length) (hbent : s.entries.getLast? = some bent)
      (hbody : s.blocksByHash bent.hash = some bl)
      (hpurge : purgeBlockDataFromBlockchain env now bl bl.txHashes.length
        { s with poppingBlock := true } = .ok (true, s₁))
      (huncount : uncountStatistics bl { s₁ with
        topDelegates := s₁.ledger.delegates.top env.config.dposNumDelegates } = .ok s₂) :
      PopSteps env now s (s₂.removeLastEntry bent)

theorem getBlockByHash_eq_ok {id : Hash} {b : Block} {s : Storage}
    (h : s.getBlockByHash id = .ok b) : s.blocksByHash id = some b := by
  unfold getBlockByHash at h
  split at h
  · simp at h
  · rename_i b' hb'
    rw [hb', Except.ok.inj h]

theorem popBlockFromBlockchain_steps (s : Storage) :
    Returns (s.popBlockFromBlockchain env now) (PopSteps env now s) := by
  unfold popBlockFromBlockchain
  split
  · rename_i e e' es hcons
    have hlength : 2 ≤ s.entries.length := by simp [hcons]
    split
    · rename_i hnone
      simp [List.getLast?_eq_none_iff.mp hnone] at hlength
    rename_i bent hbent
    refine Returns.bind_ok fun bl hbl => Returns.bind_ok fun r hpurge => ?_
    have hbody := getBlockByHash_eq_ok (reading_eq_ok_iff.mp hbl)
    obtain ⟨purged, s₁⟩ := r
    cases purged with
    | false => exact Returns.ok_iff.mpr (.stuck hlength hbent hbody hpurge)
    | true =>
      refine Returns.bind_ok fun r hr => ?_
      rw [(recalculateTopDelegates_eq_ok hr).1]
      refine Returns.bind_ok fun s₂ huncount => Returns.ok_iff.mpr ?_
      exact .purged hlength hbent hbody hpurge huncount
  · rename_i hshort
    refine Returns.ok_iff.mpr (.short ?_)
    rcases hs : s.entries with _ | ⟨e, _ | ⟨e', es⟩⟩
    · simp
    · simp
    · exact absurd hs (hshort e e' es)

theorem popBlockFromBlockchain_frame (s : Storage) :
    Returns (s.popBlockFromBlockchain env now) fun r => PopFrame r.1 s r.2 := by
  refine (popBlockFromBlockchain_steps s).mono fun r hr => ?_
  cases hr with
  | short => exact ⟨rfl, fun _ => ⟨rfl, rfl⟩, nofun, fun h => h, List.Subset.refl _⟩
  | @stuck bent bl s₁ hlength hbent hbody hpurge =>
    have hsame := (purgeBlockDataFromBlockchain_sameChain ..).out _ hpurge
    dsimp only at hsame ⊢
    have hlog : s₁.log = s.log := by rw [hsame]
    refine ⟨?_, fun _ => ⟨?_, ?_⟩, nofun, fun _ => rfl, hlog ▸ List.Subset.refl _⟩
    all_goals rw [hsame]
  | @purged bent bl s₁ s₂ hlength hbent hbody hpurge huncount =>
    have hsame := (purgeBlockDataFromBlockchain_sameChain ..).out _ hpurge
    dsimp only at hsame
    obtain ⟨ds, log, hsub, rfl⟩ := (uncountStatistics_frame ..).out _ huncount
    have hlog : s.log ⊆ log := by
      rw [hsame] at hsub
      exact hsub
    unfold removeLastEntry
    split
    · refine ⟨?_, fun _ => ⟨?_, ?_⟩, nofun, fun _ => rfl, hlog⟩
      all_goals rw [hsame]
    · refine ⟨?_, nofun, fun _ => ⟨hlength, ?_, bent, hbent, ?_⟩, fun _ => rfl, hlog⟩
      all_goals rw [hsame]

theorem PopFrame.of_pop (h : s.popBlockFromBlockchain env now = .ok (popped, s')) :
    PopFrame popped s s' :=
  (popBlockFromBlockchain_frame s).out _ h

theorem TxInvariant.popBlockFromBlockchain {P : Storage → Prop} (hP : TxInvariant env now P)
    (h : P s) : Returns (s.popBlockFromBlockchain env now) fun r => P r.2 := by
  have hpopping : P { s with poppingBlock := true } := hP.congr h rfl rfl
  refine (popBlockFromBlockchain_steps s).mono fun r hr => ?_
  cases hr with
  | short => exact h
  | stuck hlength hbent hbody hpurge =>
    exact hP.congr ((hP.purgeBlockDataFromBlockchain _ _ hpopping).out _ hpurge) rfl rfl
  | purged hlength hbent hbody hpurge huncount =>
    have hkept := (hP.purgeBlockDataFromBlockchain _ _ hpopping).out _ hpurge
    obtain ⟨ds, log, -, rfl⟩ := (uncountStatistics_frame ..).out _ huncount
    refine hP.congr hkept ?_ ?_
    all_goals
      unfold removeLastEntry
      split <;> rfl

theorem popBlockFromBlockchain_allTxs {V : Hash → Transaction → Prop} (hV : Rehashes env.crypto V)
    (h : s.AllTxs V) : Returns (s.popBlockFromBlockchain env now) fun r => r.2.AllTxs V :=
  (allTxs_txInvariant hV).popBlockFromBlockchain h

theorem PopFrame.chainOk (h : PopFrame popped s s') (hs : s.ChainOk) : s'.ChainOk := by
  have hblocks : s'.blocksByHash = s.blocksByHash := by rw [h.frame]
  cases popped with
  | false =>
    obtain ⟨hentries, hindex⟩ := h.failed rfl
    exact ⟨by rw [hentries, hindex]; exact hs.indexed,
      by rw [hentries, hblocks]; exact hs.bodies⟩
  | true =>
    obtain ⟨-, hentries, bent, hbent, hindex⟩ := h.done rfl
    have hget : ∀ i e, s'.entries[i]? = some e →
        s.entries[i]? = some e ∧ i < s.entries.length - 1 := by
      intro i e he
      rw [hentries, List.getElem?_dropLast] at he
      split_ifs at he with hlt
      exact ⟨he, hlt⟩
    constructor
    · intro i e he
      obtain ⟨he, hlt⟩ := hget i e he
      -- the last entry has another hash, since it has another index
      have hne : e.hash ≠ bent.hash := by
        intro heq
        rw [List.getLast?_eq_getElem?] at hbent
        have hlast := hs.indexed _ _ hbent
        rw [← heq, hs.indexed i e he, Option.some.injEq] at hlast
        omega
      rw [hindex, Function.update_of_ne hne]
      exact hs.indexed i e he
    · intro i e he
      rw [hblocks]
      exact hs.bodies i e (hget i e he).1

theorem PopFrame.nonempty (h : PopFrame popped s s') (hs : s.entries ≠ []) : s'.entries ≠ [] := by
  cases popped with
  | false => rwa [(h.failed rfl).1]
  | true =>
    obtain ⟨hlength, hentries, -⟩ := h.done rfl
    rw [hentries]
    intro hnil
    have := congrArg List.length hnil
    simp at this
    omega

theorem popBlockFromBlockchain_wellFormed (hs : s.WellFormed) :
    Returns (s.popBlockFromBlockchain env now) fun r => r.2.WellFormed := by
  constructor
  intro r hr
  have hframe := (popBlockFromBlockchain_frame s).out _ hr
  exact ⟨hframe.popping hs.popping,
    (popBlockFromBlockchain_allTxs (isVetted_rehashes _) hs.vetted).out _ hr, hframe.chainOk hs.chain, hframe.nonempty hs.nonempty⟩

end Storage

end Pebblecoin
