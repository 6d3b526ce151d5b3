import Mathlib.Data.List.TakeWhile
import Pebblecoin.FeeCache

/-!
The average of past fees over the day before a block, as numbers.
-/

namespace Pebblecoin.Storage

open Containers Control Wire

/-- The longest run of blocks back from the last one below a height that are at most a
day older than it. -/
structure PastDay (s : Storage) (height : Nat) (last : BlockchainEntry)
    (bents : List BlockchainEntry) : Prop where
  longest : ∃ older, s.entries.take height = older ++ bents ∧
    ∀ bent ∈ older.getLast?, bent.timestamp.toNat + 86400 < last.timestamp.toNat
  within : ∀ bent ∈ bents, last.timestamp.toNat ≤ bent.timestamp.toNat + 86400
  getLast : bents.getLast? = some last

variable {s : Storage}

theorem sumTxFees_toNat {ids : List Hash}
    (hstored : ∀ id ∈ ids, (s.ledger.transactions id).isSome = true) (sum : UInt64) :
    ∃ r, s.sumTxFees ids sum = .ok r ∧
      r.toNat = (sum.toNat + (ids.map s.txFee).sum) % 2 ^ 64 := by
  induction ids generalizing sum with
  | nil => exact ⟨sum, rfl, by simp [Nat.mod_eq_of_lt sum.toNat_lt]⟩
  | cons id ids ih =>
    obtain ⟨e, he⟩ := Option.isSome_iff_exists.mp (hstored id (by simp))
    obtain ⟨r, hr, hsum⟩ := ih (fun k hk => hstored k (by simp [hk])) (sum + e.tx.getTxFee)
    refine ⟨r, ?_, ?_⟩
    · rw [sumTxFees, he]
      exact hr
    · rw [hsum, List.map_cons, List.sum_cons, txFee, he, UInt64.toNat_add, Nat.mod_add_mod,
        Nat.add_assoc]
      rfl

theorem getBlockFees_toNat {bent : BlockchainEntry} {b : Block}
    (hb : s.blocksByHash bent.hash = some b)
    (hstored : ∀ id ∈ b.txHashes, (s.ledger.transactions id).isSome = true) :
    ∃ fees, s.getBlockFees bent = .ok fees ∧ fees.toNat = s.blockFees bent % 2 ^ 64 := by
  obtain ⟨r, hr, hsum⟩ := sumTxFees_toNat hstored 0
  refine ⟨r, bind_eq_ok_iff.mpr ⟨b, ?_, hr⟩, ?_⟩
  · rw [getBlockByHash, hb]
  · rw [hsum, blockFees, hb, UInt64.toNat_zero, Nat.zero_add]
    rfl

theorem feesOfPastDay_toNat (endTimestamp : UInt64) {bents : List BlockchainEntry}
    (hstored : ∀ bent ∈ bents, ∃ fees, s.getBlockFees bent = .ok fees ∧
      fees.toNat = s.blockFees bent % 2 ^ 64) (used : Nat) (sum : UInt64) :
    ∃ r, s.feesOfPastDay endTimestamp bents used sum =
        .ok (used + (dayBack endTimestamp bents).length, r) ∧
      r.toNat = (sum.toNat + s.totalFees (dayBack endTimestamp bents)) % 2 ^ 64 := by
  induction bents generalizing used sum with
  | nil => exact ⟨sum, rfl, by simp [dayBack, totalFees, Nat.mod_eq_of_lt sum.toNat_lt]⟩
  | cons bent bents ih =>
    rw [feesOfPastDay]
    split_ifs with hold
    · refine ⟨sum, ?_, ?_⟩
      · simp [dayBack, hold]
      · simp [dayBack, hold, totalFees, Nat.mod_eq_of_lt sum.toNat_lt]
    · obtain ⟨fees, hfees, hnumber⟩ := hstored bent (by simp)
      obtain ⟨r, hr, htotal⟩ := ih (fun b hb => hstored b (by simp [hb])) (used + 1) (sum + fees)
      rw [dayBack, List.takeWhile_cons_of_pos (by simpa using hold), ← dayBack]
      refine ⟨r, bind_eq_ok_iff.mpr ⟨fees, hfees, ?_⟩, ?_⟩
      · rw [hr, List.length_cons, Nat.add_assoc, Nat.add_comm 1]
      · rw [htotal, UInt64.toNat_add, hnumber, totalFees, totalFees, List.map_cons, List.sum_cons]
        omega

theorem older_iff {last bent : BlockchainEntry} (hday : 86400 ≤ last.timestamp.toNat) :
    bent.timestamp < last.timestamp - 86400 ↔
      bent.timestamp.toNat + 86400 < last.timestamp.toNat := by
  have hle : (86400 : UInt64) ≤ last.timestamp := hday
  rw [UInt64.lt_iff_toNat_lt, UInt64.toNat_sub_of_le _ _ hle]
  change _ < last.timestamp.toNat - 86400 ↔ _
  omega

theorem length_dayBlocks_le (height : Nat) (last : BlockchainEntry) :
    (s.dayBlocks height last).length ≤ height := by
  rw [dayBlocks, List.length_reverse]
  refine (List.takeWhile_sublist _).length_le.trans ?_
  rw [List.length_reverse]
  exact List.length_take_le ..

theorem pastDay_dayBlocks {height : Nat} {last : BlockchainEntry} (hpos : 0 < height)
    (hlast : s.entries[height - 1]? = some last) (hday : 86400 ≤ last.timestamp.toNat) :
    s.PastDay height last (s.dayBlocks height last) := by
  have hfirst : (s.entries.take height).reverse.head? = some last := by
    rw [List.head?_reverse, List.getLast?_take, if_neg (by omega), hlast]
    rfl
  refine ⟨⟨((s.entries.take height).reverse.dropWhile fun bent =>
    !decide (bent.timestamp < last.timestamp - 86400)).reverse, ?_, ?_⟩, ?_, ?_⟩
  · rw [dayBlocks, ← List.reverse_append, dayBack, List.takeWhile_append_dropWhile, List.reverse_reverse]
  · intro bent hbent
    rw [List.getLast?_reverse] at hbent
    have hstop := List.head?_dropWhile_not
      (fun bent : BlockchainEntry => !decide (bent.timestamp < last.timestamp - 86400))
      (s.entries.take height).reverse
    rw [Option.mem_def.mp hbent] at hstop
    exact (older_iff hday).mp (by simpa using hstop)
  · intro bent hbent
    have hgoes := List.mem_takeWhile_imp (List.mem_reverse.mp hbent)
    have hnot := mt (older_iff hday).mpr (by simpa using hgoes)
    omega
  · obtain ⟨rest, hrest⟩ := List.head?_eq_some_iff.mp hfirst
    have hgoes : ¬ last.timestamp < last.timestamp - 86400 := fun h => by
      have := (older_iff hday).mp h
      omega
    rw [dayBlocks, List.getLast?_reverse, dayBack, hrest, List.takeWhile_cons_of_pos (by simpa using hgoes)]
    rfl

theorem PastDay.length_pos {height : Nat} {last : BlockchainEntry} {bents : List BlockchainEntry}
    (h : s.PastDay height last bents) : 0 < bents.length := by
  refine List.length_pos_iff.mpr fun hnil => ?_
  rw [hnil] at h
  cases h.getLast

/-- In a state that has all transactions of its blocks the average is the quotient of
the wrapped total. -/
theorem averagePastBlockFees_toNat (hstored : s.AllStored) {height : UInt64}
    {last : BlockchainEntry} (hpos : 0 < height.toNat)
    (hlast : s.entries[height.toNat - 1]? = some last) (hday : 86400 ≤ last.timestamp.toNat) :
    ∃ v, s.averagePastBlockFees height.toNat = .ok v ∧
      v.toNat = s.totalFees (s.dayBlocks height.toNat last) % 2 ^ 64 /
        (s.dayBlocks height.toNat last).length := by
  have hfees : ∀ bent ∈ (s.entries.take height.toNat).reverse, ∃ fees,
      s.getBlockFees bent = .ok fees ∧ fees.toNat = s.blockFees bent % 2 ^ 64 := by
    intro bent hbent
    obtain ⟨b, hb, htxs⟩ := hstored bent (List.mem_of_mem_take (List.mem_reverse.mp hbent))
    exact getBlockFees_toNat hb htxs
  obtain ⟨sum, hsum, htotal⟩ := feesOfPastDay_toNat last.timestamp hfees 0 0
  obtain ⟨n, hn⟩ : ∃ n, n = (s.dayBlocks height.toNat last).length := ⟨_, rfl⟩
  have hpositive : 0 < n := hn ▸ (pastDay_dayBlocks hpos hlast hday).length_pos
  have hsmall : n < 2 ^ 64 := hn ▸ lt_of_le_of_lt (length_dayBlocks_le ..) height.toNat_lt
  have hused : 0 + (dayBack last.timestamp (s.entries.take height.toNat).reverse).length = n := by
    rw [Nat.zero_add, hn, dayBlocks, List.length_reverse]
  rw [hused] at hsum
  refine ⟨sum / UInt64.ofNat n, ?_, ?_⟩
  · rw [averagePastBlockFees, if_neg (by omega), hlast]
    refine bind_eq_ok_iff.mpr ⟨_, hsum, ?_⟩
    dsimp only
    rw [if_neg (by omega)]
  · rw [UInt64.toNat_div, htotal, UInt64.toNat_zero, Nat.zero_add, toNat_ofNat_of_lt hsmall, ← hn,
      dayBlocks, totalFees, totalFees, List.map_reverse, List.sum_reverse]

variable {env : Env} {genesis : Block} {ops : List (UInt64 × Op)} {c : FeeCache}

theorem CachedRun.average_dayBlocks (h : CachedRun env genesis ops s c)
    (hids : IdsUnique env.crypto genesis ops) (hoverflow : .applyVoteOverflow ∉ s.log)
    {height : UInt64} {last : BlockchainEntry} (hpos : 0 < height.toNat)
    (hlast : s.entries[height.toNat - 1]? = some last) (hday : 86400 ≤ last.timestamp.toNat) :
    ∃ v c', s.averagePastBlockFeesCached height.toNat c = .ok (v, c') ∧
      s.averagePastBlockFees height.toNat = .ok v ∧
      (v.toNat = s.totalFees (s.dayBlocks height.toNat last) /
          (s.dayBlocks height.toNat last).length ↔
        s.totalFees (s.dayBlocks height.toNat last) < 2 ^ 64) := by
  obtain ⟨recs, hrec⟩ := h.reachedBy.recorded hids hoverflow
  obtain ⟨v, hv, hnumber⟩ := averagePastBlockFees_toNat hrec.allStored hpos hlast hday
  obtain ⟨c', hc'⟩ := averagePastBlockFeesCached_eq h.reachedBy.txsAre
    (fun _ _ _ htx htx' => hids _ htx _ htx' rfl) h.known hv
  refine ⟨v, c', hc', hv, ?_⟩
  rw [hnumber]
  exact mod_div_eq_div_iff (pastDay_dayBlocks hpos hlast hday).length_pos
    ((length_dayBlocks_le ..).trans height.toNat_lt.le)

/-- Whatever has been asked before, the answer is that without a cache, and it is the
average fee of the blocks of the past day exactly if their fees do not add up to more than
a word. -/
theorem averagePastBlockFees_exact_iff (h : CachedRun env genesis ops s c)
    (hids : IdsUnique env.crypto genesis ops) (hoverflow : .applyVoteOverflow ∉ s.log)
    {height : UInt64} {last : BlockchainEntry} (hpos : 0 < height.toNat)
    (hlast : s.entries[height.toNat - 1]? = some last) (hday : 86400 ≤ last.timestamp.toNat) :
    ∃ bents v c', s.PastDay height.toNat last bents ∧
      s.averagePastBlockFeesCached height.toNat c = .ok (v, c') ∧
      s.averagePastBlockFees height.toNat = .ok v ∧
      (v.toNat = s.totalFees bents / bents.length ↔ s.totalFees bents < 2 ^ 64) := by
  obtain ⟨v, c', hcached, hplain, hexact⟩ := h.average_dayBlocks hids hoverflow hpos hlast hday
  exact ⟨_, v, c', pastDay_dayBlocks hpos hlast hday, hcached, hplain, hexact⟩

/-- The transactions arrive, then the block, a day after those before. -/
def sampleLateOps (txs : List Transaction) (b : Block) : List (UInt64 × Op) :=
  txs.map (fun tx => (1000, .handleIncomingTx ((serializeTransaction tx).getD []) true)) ++
    [(100000, .addNewBlock 0 { b with timestamp := 100000 })]

def sampleLateRegistrationOps : List (UInt64 × Op) :=
  sampleFirstBlocks.map (fun b => (1000, .addNewBlock 0 b)) ++
    sampleLateOps [sampleRegistration] sampleRegistrationBlock

def sampleLate : Storage :=
  (play samplePowEnv 1000 sampleGenesis sampleLateRegistrationOps).getD Storage.empty

theorem averagePastBlockFees_exact_of_late_registration : ∃ last bents v c',
    sampleLate.entries[12]? = some last ∧ sampleLate.PastDay 13 last bents ∧
      sampleLate.averagePastBlockFeesCached 13 (.clear _) = .ok (v, c') ∧
      sampleLate.averagePastBlockFees 13 = .ok v ∧
      (v.toNat = sampleLate.totalFees bents / bents.length ↔
        sampleLate.totalFees bents < 2 ^ 64) := by
  have hreached : sampleLate.ReachedBy samplePowEnv sampleGenesis sampleLateRegistrationOps :=
    reachedBy_of_play (by decide +kernel)
  have hlate : (sampleLate.entries[12]?.any fun last => decide (86400 ≤ last.timestamp.toNat)) =
      true := by
    decide +kernel
  obtain ⟨last, hlast, hday⟩ := (Option.any_eq_true _ _).mp hlate
  obtain ⟨bents, v, c', h⟩ := averagePastBlockFees_exact_iff hreached.cachedRun (by decide +kernel)
    (by decide +kernel) (show 0 < (13 : UInt64).toNat by decide) hlast (of_decide_eq_true hday)
  exact ⟨last, bents, v, c', hlast, h⟩

theorem averagePastBlockFeesCached_clear {height : Nat} {v : UInt64}
    (h : s.averagePastBlockFees height = .ok v) :
    ∃ c', s.averagePastBlockFeesCached height (.clear _) = .ok (v, c') := by
  refine averagePastBlockFeesCached_eq
    (V := fun id tx => ∃ e, s.ledger.transactions id = some e ∧ e.tx = tx)
    (fun id e he => ⟨e, he, rfl⟩) ?_ (LruCache.all_clear _) h
  rintro id tx tx' ⟨e, he, rfl⟩ ⟨e', he', rfl⟩
  rw [Option.some.inj (he.symm.trans he')]

/-- Three transactions that leave most of a large output as their fees. -/
def sampleFeeTxs : List Transaction :=
  (List.range 3).map fun i =>
    sampleTx [.toKey (sampleInk (sampleReward * 4 ^ 14) (301 + i))] [sampleReward]

def sampleFeeBlock : Block := sampleFullBlock 13 (sampleId sampleRichBlock) sampleFeeTxs

def sampleFeeOps : List (UInt64 × Op) := sampleLateOps sampleFeeTxs sampleFeeBlock

/-- After the block with these fees the average is not that of the past day. -/
def missesFees (s : Storage) : Bool :=
  s.entries[13]?.any fun last => decide (86400 ≤ last.timestamp.toNat) &&
    (s.averagePastBlockFees 14).toOption.any fun v =>
      decide (v.toNat ≠ s.totalFees (s.dayBlocks 14 last) / (s.dayBlocks 14 last).length)

def sampleFeeRun (s : Storage) : Except Interrupted Storage := do
  let s ← s.receiveAll sampleZoneEnv 1000 sampleFeeTxs
  s.calls sampleZoneEnv [(100000, .addNewBlock 0 { sampleFeeBlock with timestamp := 100000 })]

theorem calls_sampleFeeOps (s : Storage) : s.calls sampleZoneEnv sampleFeeOps = s.sampleFeeRun := by
  have hops : sampleFeeOps = deliveries 1000 sampleFeeTxs ++
      [(100000, .addNewBlock 0 { sampleFeeBlock with timestamp := 100000 })] := rfl
  rw [hops, calls_append, calls_deliveries _ _ (by decide +kernel)]
  rfl

theorem testBallot_missesFees :
    testBallot (fun s => s.sampleFeeRun.toOption.any missesFees) = true := by
  decide +kernel

/-- The sum of the fees wraps, and the average is too small. -/
theorem averagePastBlockFees_wraps : ∃ s last bents v c',
    CachedRun sampleZoneEnv sampleGenesis (sampleBallotOps ++ sampleFeeOps) s (.clear _) ∧
      s.entries[13]? = some last ∧ 86400 ≤ last.timestamp.toNat ∧
      s.PastDay 14 last bents ∧ s.averagePastBlockFeesCached 14 (.clear _) = .ok (v, c') ∧
      v.toNat ≠ s.totalFees bents / bents.length := by
  obtain ⟨s₀, hreached, hany⟩ := exists_of_testBallot testBallot_missesFees
  obtain ⟨s, hrun, hs⟩ := (Option.any_eq_true _ _).mp hany
  obtain ⟨hcalm, hrun⟩ :=
    uninterrupted_of_calls ((calls_sampleFeeOps s₀).trans (eq_ok_of_toOption hrun))
  obtain ⟨last, hlast, hfees⟩ := (Option.any_eq_true _ _).mp hs
  obtain ⟨hday, hany⟩ := Bool.and_eq_true_iff.mp hfees
  obtain ⟨v, hv, hwrong⟩ := (Option.any_eq_true _ _).mp hany
  obtain ⟨c', hcached⟩ := averagePastBlockFeesCached_clear (eq_ok_of_toOption hv)
  have hpast := pastDay_dayBlocks (show 0 < 14 by decide) hlast (of_decide_eq_true hday)
  exact ⟨s, last, _, v, c', (hreached.append hcalm hrun).cachedRun, hlast,
    of_decide_eq_true hday, hpast, hcached, of_decide_eq_true hwrong⟩

end Pebblecoin.Storage
