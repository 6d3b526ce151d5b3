import Pebblecoin.CheckpointFinality

/-!
Every block of the main chain was accepted on the chain that is below it now.
-/

namespace Pebblecoin

open Control

namespace Storage

variable {env : Env} {K : Hash → Option Hash → Prop} {now : UInt64} {s s' t : Storage} {i : Nat}
  {bent : BlockchainEntry} {bl : Block}

/-- The storage `t` accepted the block `bl` on the part of the chain below height `i`.  It
knew only long hashes that satisfy `K`. -/
structure AcceptedAt (env : Env) (K : Hash → Option Hash → Prop) (i : Nat) (bent : BlockchainEntry) (bl : Block)
    (s t : Storage) : Prop where
  length : t.entries.length = i
  entries : t.entries = s.entries.take i
  body : s.blocksByHash bent.hash = some bl
  cached : ∀ id longhash, t.hashCache id = some longhash → K id (some longhash)
  appended : ∃ now taken l fee base prev t',
    Appended env now bl bent.hash taken l fee base prev t t' ∧
      t.newEntry bl bent.hash ((minerTotals bl).advance taken)
        (t.getDifficultyForNextBlock env) base = bent

/-- Every block of the chain was accepted by a storage whose chain was what is below the block. -/
structure History (env : Env) (K : Hash → Option Hash → Prop) (s : Storage) : Prop where
  accepted : ∀ i bent, s.entries[i]? = some bent → ∃ bl t, AcceptedAt env K i bent bl s t
  cached : ∀ id longhash, s.hashCache id = some longhash → K id (some longhash)

theorem AcceptedAt.keep (h : AcceptedAt env K i bent bl s t) (hgrow : BodiesGrow s s')
    (hentries : s'.entries.take i = s.entries.take i) : AcceptedAt env K i bent bl s' t :=
  ⟨h.length, h.entries.trans hentries.symm, hgrow _ _ h.body, h.cached, h.appended⟩

theorem History.take {n : Nat} (h : s.History env K) (hgrow : BodiesGrow s s')
    (hentries : s'.entries = s.entries.take n)
    (hcache : ∀ id longhash, s'.hashCache id = some longhash → K id (some longhash)) :
    s'.History env K := by
  refine ⟨fun i bent hi => ?_, hcache⟩
  rw [hentries, List.getElem?_take] at hi
  split_ifs at hi with hlt
  obtain ⟨bl, t, ht⟩ := h.accepted i bent hi
  refine ⟨bl, t, ht.keep hgrow ?_⟩
  rw [hentries, List.take_take, Nat.min_eq_left hlt.le]

theorem Appended.history {id : Hash} {taken : List Taken} {l : Ledger} {fee base : UInt64}
    {prev : Option Block} (happ : Appended env now bl id taken l fee base prev s s')
    (hgrow : BodiesGrow s s') (h : s.History env K) : s'.History env K := by
  refine ⟨fun i bent hi => ?_, by rw [happ.hashCache]; exact h.cached⟩
  rw [happ.entries] at hi
  rcases Nat.lt_trichotomy i s.entries.length with hlt | rfl | hgt
  · rw [List.getElem?_append_left hlt] at hi
    obtain ⟨bl, t, ht⟩ := h.accepted i bent hi
    refine ⟨bl, t, ht.keep hgrow ?_⟩
    rw [happ.entries, List.take_append_of_le_length hlt.le]
  · obtain rfl : _ = bent := Option.some.inj (by simpa using hi)
    refine ⟨bl, s, rfl, ?_, ?_, h.cached, now, taken, l, fee, base, prev, s', happ, rfl⟩
    · rw [happ.entries, List.take_left]
    · rw [happ.blocks]
      exact Function.update_self ..
  · rw [List.getElem?_eq_none (by simp; omega)] at hi
    cases hi

theorem Action.history {D : Block → Prop} (haction : Action env D now s s') (hs : s.Sound env)
    (h : s.History env K) : s'.History env K := by
  have hgrow := haction.bodiesGrow hs
  have hkeep : s'.entries = s.entries → s'.hashCache = s.hashCache → s'.History env K :=
    fun hentries hcache => h.take hgrow (hentries.trans List.take_length.symm) (hcache ▸ h.cached)
  cases haction with
  | connect _ _ _ hrun =>
    rcases hs.handle_cases hrun with ⟨taken, l, fee, base, prev, -, happ⟩ | ⟨-, hrej⟩
    · exact happ.history hgrow h
    · exact hkeep (by rw [hrej.frame]) (by rw [hrej.frame])
  | @disconnect popped _ _ hrun =>
    have hpop := PopFrame.of_pop hrun
    cases popped with
    | false => exact hkeep (hpop.failed rfl).1 (by rw [hpop.frame])
    | true =>
      refine h.take hgrow ((hpop.done rfl).2.1.trans List.dropLast_eq_take) ?_
      rw [hpop.frame]
      exact h.cached
  | place _ _ _ hplace =>
    obtain ⟨-, rfl⟩ := placeAlternativeBlock_eq_ok hplace
    exact hkeep rfl rfl
  | markInvalid ids hbody halt =>
    have hmarked := markBranchInvalid_eq ids (hs.alternatives _ _ halt).1 hbody
    exact hkeep (by rw [hmarked]) (by rw [hmarked])
  | _ => exact hkeep rfl rfl

/-- The hash cache was told the long hash in the run. -/
def Learned (ops : List (UInt64 × Op)) (id : Hash) (longhash : Option Hash) : Prop :=
  ∃ now, (now, Op.learnLonghash id longhash) ∈ ops

theorem ReachedBy.history {genesis : Block} {ops : List (UInt64 × Op)}
    (h : s.ReachedBy env genesis ops) :
    s.History env (Learned ops) := by
  obtain ⟨now, id, s₀, hid, hadd, hcalm, hrun⟩ := h
  have hinit : s₀.Initial env := ⟨now, genesis, id, hid, hadd⟩
  have hbase : s₀.History env (Learned ops) := by
    obtain ⟨now, genesis, id, taken, l, fee, base, prev, -, happ⟩ := hinit.appended
    refine happ.history (fun _ _ hb => by cases hb) ⟨fun _ _ hi => ?_, fun _ _ hcached => ?_⟩
    · cases hi
    · cases hcached
  refine (run_invariant (fun _ => True) (fun _ => True) (Learned ops) (History env (Learned ops))
    ?_ ?_ ?_ hinit.sound hbase (fun op hop => ?_) hcalm hrun).2
  · intro now blob kept s r _ _ hs hr
    rw [(handleIncomingTx_sameButPool blob kept s).out _ hr]
    exact hs.take (.refl _) List.take_length.symm hs.cached
  · exact fun hs h haction => haction.history hs h
  · intro id longhash s hlearned hs
    refine hs.take (.refl _) List.take_length.symm fun k hash hk => ?_
    simp only [learnLonghash, Function.update_apply] at hk
    split_ifs at hk with heq
    · rw [heq, ← hk]
      exact hlearned
    · exact hs.cached k hash hk
  · obtain ⟨now, op⟩ := op
    cases op with
    | learnLonghash id longhash => exact ⟨now, hop⟩
    | _ => trivial

theorem Reachable.history (h : s.Reachable env) : ∃ K, s.History env K := by
  obtain ⟨genesis, ops, h⟩ := reachable_iff.mp h
  exact ⟨_, h.history⟩

/-- Index, stored bodies and links of the main chain agree. -/
theorem chain_linked (h : s.Reachable env) (hi : s.entries[i + 1]? = some bent) :
    (∀ id, s.blocksIndex id = some (i + 1) ↔ id = bent.hash) ∧ ∃ bl below,
      s.blocksByHash bent.hash = some bl ∧ getBlockHash env.crypto bl = some bent.hash ∧
        s.entries[i]? = some below ∧ bl.prevId = below.hash := by
  obtain ⟨K, hhistory⟩ := h.history
  obtain ⟨bl, t, ht⟩ := hhistory.accepted _ bent hi
  obtain ⟨now, taken, l, fee, base, prev, t', happ, -⟩ := ht.appended
  obtain ⟨hprev, -⟩ := checkBlockHeader_eq_none happ.header
  have hbelow := List.getElem?_eq_getElem (Nat.lt_of_succ_lt (List.getElem?_eq_some_iff.mp hi).1)
  refine ⟨fun id => ⟨fun hid => ?_, ?_⟩, bl, _, ht.body, h.sound.hashes _ _ ht.body, hbelow, ?_⟩
  · have hindex := h.worked.index id _ hid
    rw [hi] at hindex
    exact (Option.some.inj hindex).symm
  · rintro rfl
    exact h.sound.chain.indexed _ _ hi
  · rw [hprev, getTailId, ht.entries, List.take_add_one, hbelow, Option.toList_some,
      List.getLast?_concat]
    rfl

theorem sampleFinal_reached : sampleFinal.Reachable sampleFinalEnv ∧
    ∃ bent, sampleFinal.entries[2]? = some bent :=
  ⟨(reachedBy_of_play (by decide +kernel)).reachable,
    Option.isSome_iff_exists.mp (by decide +kernel)⟩

theorem chain_linked_of_sampleFinal : ∃ bent, sampleFinal.entries[2]? = some bent ∧
    ∀ id, sampleFinal.blocksIndex id = some 2 ↔ id = bent.hash := by
  obtain ⟨hreach, bent, hi⟩ := sampleFinal_reached
  exact ⟨bent, hi, (chain_linked hreach hi).1⟩

/-- Where a checkpoint is set, the main chain has its block. -/
theorem checkpoint_met (h : s.Reachable env) (hi : s.entries[i]? = some bent) {id : Hash}
    (hid : env.checkpoints.find? i = some id) : bent.hash = id := by
  obtain ⟨K, hhistory⟩ := h.history
  obtain ⟨bl, t, ht⟩ := hhistory.accepted i bent hi
  obtain ⟨now, taken, l, fee, base, prev, t', happ, -⟩ := ht.appended
  obtain ⟨-, -, -, -, hproof, -⟩ := checkBlockHeader_eq_none happ.header
  rw [checkProof, getCurrentBlockchainHeight, ht.length,
    if_pos (Checkpoints.isInCheckpointZone_of_find? hid), Checkpoints.checkBlock, hid] at hproof
  by_contra hne
  simp [Ne.symm hne] at hproof

theorem checkpoint_met_of_sampleFinal :
    ∃ bent, sampleFinal.entries[2]? = some bent ∧ bent.hash = sampleId samplePosBlock := by
  obtain ⟨hreach, bent, hi⟩ := sampleFinal_reached
  exact ⟨bent, hi, checkpoint_met hreach hi (by decide +kernel)⟩

theorem getBlockLonghash_eq_ok {crypto : Crypto} {hashCache : Hash → Option Hash} {height : Nat}
    {proofOfWork id : Hash} (hid : getBlockHash crypto bl = some id)
    (h : getBlockLonghash crypto hashCache bl height = .ok (some proofOfWork)) :
    hashCache id = some proofOfWork ∨
      getBlockLonghash crypto (fun _ => none) bl height = .ok (some proofOfWork) := by
  unfold getBlockLonghash at h ⊢
  split at h
  · cases h
  rw [if_neg ‹_›]
  split at h
  · cases h
  rw [hid, Option.getD_some] at h
  cases hcache : hashCache id with
  | none =>
    rw [hcache] at h
    exact Or.inr h
  | some known =>
    rw [hcache] at h
    exact Or.inl (Except.ok.inj h)

/-- Outside the checkpoint zone a mined block has a hash that meets the difficulty by which it
raises the total: the one that is computed for its height, or one that the hash cache has
been told. -/
theorem work_proven {genesis : Block} {ops : List (UInt64 × Op)} (h : s.ReachedBy env genesis ops)
    (hi : s.entries[i]? = some bent) (hzone : env.checkpoints.isInCheckpointZone i = false) :
    ∃ bl, s.blocksByHash bent.hash = some bl ∧ (isPowBlock bl = true → ∃ proofOfWork,
      (getBlockLonghash env.crypto (fun _ => none) bl i = .ok (some proofOfWork) ∨
        Learned ops bent.hash (some proofOfWork)) ∧
        checkHash proofOfWork (bent.cumulativeDifficulty -
          ((s.entries.take i).getLast?.map (·.cumulativeDifficulty)).getD 0) = true) := by
  obtain ⟨bl, t, ht⟩ := h.history.accepted i bent hi
  refine ⟨bl, ht.body, fun hpow => ?_⟩
  obtain ⟨now, taken, l, fee, base, prev, t', happ, hbent⟩ := ht.appended
  obtain ⟨-, -, -, -, hproof, -⟩ := checkBlockHeader_eq_none happ.header
  have hraised : bent.cumulativeDifficulty -
      ((s.entries.take i).getLast?.map (·.cumulativeDifficulty)).getD 0 =
        t.getDifficultyForNextBlock env := by
    rw [← congrArg BlockchainEntry.cumulativeDifficulty hbent, ← ht.entries]
    exact UInt64.add_sub_cancel ..
  rw [checkProof, getCurrentBlockchainHeight, ht.length, hzone, if_neg Bool.false_ne_true] at hproof
  obtain ⟨proof, hchecked, hproof⟩ := map_eq_ok_iff.mp hproof
  obtain rfl := HandleExit.ofProof_eq_none_iff.mp hproof
  rw [checkPowPos, if_pos hpow, ht.length] at hchecked
  obtain ⟨longhash, hlong, hchecked⟩ := bind_eq_ok_iff.mp hchecked
  rw [hraised]
  cases longhash with
  | none => cases hchecked
  | some longhash =>
    refine ⟨longhash, ?_, ProofCheck.ofBool_eq_passed_iff.mp (Except.ok.inj hchecked)⟩
    refine (getBlockLonghash_eq_ok (h.reachable.sound.hashes _ _ ht.body) hlong).symm.imp_right ?_
    exact ht.cached _ _

/-- The long hash of the second block has been signed. -/
def sampleMinedOps : List (UInt64 × Op) :=
  [(1000, .addNewBlock 0 samplePowBlock),
    (1000, .learnLonghash (sampleId samplePowBlock) (some nullHash))]

def sampleMined : Storage :=
  (play samplePowEnv 1000 sampleGenesis sampleMinedOps).getD Storage.empty

theorem work_proven_of_sampleMined : ∃ bent bl proofOfWork,
    sampleMined.entries[1]? = some bent ∧ sampleMined.blocksByHash bent.hash = some bl ∧
      checkHash proofOfWork (bent.cumulativeDifficulty -
        ((sampleMined.entries.take 1).getLast?.map (·.cumulativeDifficulty)).getD 0) = true := by
  have hreach : sampleMined.ReachedBy samplePowEnv sampleGenesis sampleMinedOps :=
    reachedBy_of_play (by decide +kernel)
  have hpow : (sampleMined.entries[1]?.bind fun bent =>
      sampleMined.blocksByHash bent.hash).any isPowBlock = true := by
    decide +kernel
  cases hi : sampleMined.entries[1]? with
  | none => simp [hi] at hpow
  | some bent =>
    obtain ⟨bl, hbody, hwork⟩ := work_proven hreach hi rfl
    rw [hi, Option.bind_some, hbody] at hpow
    obtain ⟨proof, -, hproof⟩ := hwork hpow
    exact ⟨bent, bl, proof, rfl, hbody, hproof⟩

end Storage

end Pebblecoin
