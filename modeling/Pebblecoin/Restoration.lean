import Pebblecoin.RunRecords

/-!
A pop right after a block was added restores the state, unless the statistics of
the block name a delegate that is not in the table.
-/

namespace Pebblecoin

open Containers Control

namespace Storage

theorem pop_restores_iff {env : Env} {now now' : UInt64} {bl : Block} {id : Hash} {s s' : Storage}
    (hreachable : s.Reachable env) (hcanonical : CanonicalPool env s)
    (hadd : s.handleBlockToMainChain env now bl id = .ok (.added, s')) :
    (∃ t, s'.popBlockFromBlockchain env now' = .ok (true, t) ∧ Restored bl s t) ↔
      StatisticsKnown env bl s := by
  have hs := hreachable.sound.toWellFormed
  obtain ⟨taken, l, fee, base, prev, happ⟩ := hs.appended hadd
  constructor
  · rintro ⟨t, hpop, hrestored⟩
    exact happ.statisticsKnown_of_pop hs hpop (fun _ => hrestored.contains)
      fun htop => hrestored.topDelegates.symm.trans htop
  · exact happ.pop_restores now' hs hcanonical

/-- Delegate 7 registers in the first delegate block and signs it, and a vote has arrived. -/
def sampleSeatedOps : List (UInt64 × Op) :=
  let first := sampleSignedBlock 12 200 sampleFirstTop 7 [sampleRegistration]
  sampleFirstBlocks.map (fun b => (1000, .addNewBlock 0 b)) ++
    sampleFullOps [sampleRegistration] first ++
    [(1000, .handleIncomingTx ((serializeTransaction (sampleKeyVote 101 201 0 7)).getD []) true)]

def sampleSeated : Storage :=
  (play sampleSeatEnv 1000 sampleGenesis sampleSeatedOps).getD Storage.empty

/-- A delegate block with a spend and a vote, whose statistics are due. -/
def sampleSeatedBlock : Block :=
  sampleSignedBlock 13 210 sampleSeated.getTailId 7 [sampleKeyVote 101 201 0 7]

theorem sampleSeated_statisticsKnown :
    StatisticsKnown sampleSeatEnv sampleSeatedBlock sampleSeated where
  topDelegates := by decide +kernel
  signer _ _ := by decide +kernel
  average := by
    have hheight : (sampleSeated.entries.getLast?.bind fun bent =>
        sampleSeated.blocksByHash bent.hash).all (fun b => (getBlockHeight b).toNat == 12) = true := by
      decide +kernel
    rintro b ⟨-, -, -, bent, hbent, hb⟩
    rw [hbent, Option.bind_some, hb, Option.all_some, beq_iff_eq] at hheight
    rw [hheight]
    exact ⟨_, eq_ok_of_isOk 0 (by decide +kernel)⟩

theorem pop_restores_sampleSeatedBlock : ∃ id s',
    sampleSeated.handleBlockToMainChain sampleSeatEnv 1000 sampleSeatedBlock id = .ok (.added, s') ∧
      s'.ledger.spentKeys (Blob.ofNat 32 101) = true ∧
      (s'.ledger.delegates.find? 7).map (fun info => (info.totalVotes, info.processedBlocks)) =
        some (sampleReward, 1) ∧
      ∃ t, s'.popBlockFromBlockchain sampleSeatEnv 1000 = .ok (true, t) ∧
        Restored sampleSeatedBlock sampleSeated t := by
  have hreached : sampleSeated.ReachedBy sampleSeatEnv sampleGenesis sampleSeatedOps :=
    reachedBy_of_play (by decide +kernel)
  have hadds : (sampleSeated.handleBlockToMainChain sampleSeatEnv 1000 sampleSeatedBlock
      (sampleId sampleSeatedBlock)).toOption.any (fun r => decide (r.1 = .added) &&
        r.2.ledger.spentKeys (Blob.ofNat 32 101) &&
        decide ((r.2.ledger.delegates.find? 7).map (fun info =>
          (info.totalVotes, info.processedBlocks)) = some (sampleReward, 1))) = true := by
    decide +kernel
  obtain ⟨⟨exit, s'⟩, hadd, hr⟩ := (Option.any_eq_true _ _).mp hadds
  simp only [Bool.and_eq_true, decide_eq_true_eq] at hr
  obtain ⟨⟨rfl, hspent⟩, hvotes⟩ := hr
  have hadd := eq_ok_of_toOption hadd
  exact ⟨_, s', hadd, hspent, hvotes, (pop_restores_iff hreached.reachable
    (hreached.canonicalPool (by decide +kernel)) hadd).mpr sampleSeated_statisticsKnown⟩

def samplePopped : Storage :=
  (resultD (sampleState₃.popBlockFromBlockchain sampleEnv 1000) (false, sampleState₃)).2

/-- Inside the checkpoint zone the signature is not checked.  The statistics of
the second delegate block enter its signer into the table; the pop succeeds but
leaves that entry, which has become a top delegate. -/
theorem pop_keeps_unknown_signer :
    sampleState₂.Reachable sampleEnv ∧ CanonicalPool sampleEnv sampleState₂ ∧
      (∃ id, sampleState₂.handleBlockToMainChain sampleEnv 1000 sampleSecondPosBlock id =
        .ok (.added, sampleState₃)) ∧
      sampleState₃.popBlockFromBlockchain sampleEnv 1000 = .ok (true, samplePopped) ∧
      sampleState₂.ledger.delegates.contains 7 = false ∧
      samplePopped.ledger.delegates.contains 7 = true ∧
      sampleState₂.topDelegates.elems = [] ∧ samplePopped.topDelegates.elems = [7] := by
  have haccepts : acceptsEmpty sampleEnv 1000 sampleSecondPosBlock sampleState₂ = true := by
    decide +kernel
  obtain ⟨-, -, id, -, -, hadd⟩ := acceptsEmpty_spec haccepts
  refine ⟨sampleState₂_quiet.reachable, sampleState₂_quiet.canonicalPool, ⟨id, hadd⟩,
    eq_ok_of_resultD ?_, ?_, ?_, ?_, ?_⟩
  all_goals decide +kernel

end Storage

end Pebblecoin
