import Pebblecoin.SplitStrategies
import Pebblecoin.TxPool

/-!
The transaction that pays the reward of a block.
-/

namespace Pebblecoin

open Wire

/-- The last amount goes to the one before it. -/
def mergeLast (outAmounts : List UInt64) : List UInt64 :=
  (outAmounts.set (outAmounts.length - 2)
    (outAmounts.getD (outAmounts.length - 2) 0 + outAmounts.getLast?.getD 0)).dropLast

/-- The list gets shorter with each round, so its length bounds their number. -/
def mergeOuts (maxOuts : Nat) : (rounds : Nat) → (outAmounts : List UInt64) → List UInt64
  | 0, outAmounts => outAmounts
  | rounds + 1, outAmounts =>
    if maxOuts < outAmounts.length then mergeOuts maxOuts rounds (mergeLast outAmounts)
    else outAmounts

def minerExtra (txkey : TxKey) (extraNonce : Bytes) : Option Bytes :=
  let extra := addTxPubKeyToExtra [] txkey.pub
  if extraNonce.isEmpty then some extra else addExtraNonceToTxExtra extra extraNonce

/-- The amounts of the outputs, by their digits and then merged to the number that is allowed. -/
def minerOutAmounts (blockReward : UInt64) (maxOuts : Nat) : List UInt64 :=
  let outAmounts := (decomposeAmountIntoDigits blockReward defaultFee).map Piece.amount
  mergeOuts maxOuts outAmounts.length outAmounts

def minerOut (minerAddress : AccountPublicAddress) (txkey : TxKey) (amount : UInt64 × Nat) :
    Option TxOut :=
  (txkey.derivePublicKey minerAddress amount.2).map fun key => ⟨amount.1, .toKey key⟩

def minerTx (height : UInt64) (extra : Bytes) (vout : List TxOut) : Transaction where
  version := vanillaTransactionVersion
  unlockTime := height + UInt64.ofNat cryptonoteMinedMoneyUnlockWindow
  extra := extra
  vin := [.gen height]
  vout := vout
  vinCoinTypes := [cpXpb]
  voutCoinTypes := vout.map fun _ => cpXpb
  signatures := []

def constructMinerTx (cfg : Config) (height medianSize currentBlockSize fee : UInt64)
    (minerAddress : AccountPublicAddress) (txkey : TxKey) (extraNonce : Bytes) (maxOuts : Nat) :
    Option Transaction := do
  let extra ← minerExtra txkey extraNonce
  let reward ← getBlockReward cfg medianSize currentBlockSize height.toNat
  let blockReward := reward + fee
  if maxOuts < 1 then none
  else do
    let outAmounts := minerOutAmounts blockReward maxOuts
    let vout ← outAmounts.zipIdx.mapM (minerOut minerAddress txkey)
    if outAmounts.sum ≠ blockReward then none
    else some (minerTx height extra vout)

theorem mergeLast_append (l : List UInt64) (a b : UInt64) : mergeLast (l ++ [a, b]) = l ++ [a + b] := by
  have hlength : (l ++ [a, b]).length - 2 = l.length := by
    rw [List.length_append]
    exact Nat.add_sub_cancel _ _
  rw [mergeLast, hlength]
  simp

theorem exists_append_pair {l : List UInt64} (h : 2 ≤ l.length) : ∃ init a b, l = init ++ [a, b] := by
  rcases List.eq_nil_or_concat l with rfl | ⟨init, b, rfl⟩
  · cases h
  rcases List.eq_nil_or_concat init with rfl | ⟨init, a, rfl⟩
  · rw [List.concat_eq_append, List.nil_append, List.length_singleton] at h
    omega
  · exact ⟨init, a, b, by simp⟩

theorem mergeOuts_spec {maxOuts rounds : Nat} {outAmounts : List UInt64} (hmax : 1 ≤ maxOuts)
    (hrounds : outAmounts.length ≤ rounds + 1)
    (hfits : (outAmounts.map UInt64.toNat).sum < 2 ^ 64) :
    (mergeOuts maxOuts rounds outAmounts).length ≤ maxOuts ∧
      ((mergeOuts maxOuts rounds outAmounts).map UInt64.toNat).sum =
        (outAmounts.map UInt64.toNat).sum := by
  induction rounds generalizing outAmounts with
  | zero => exact ⟨hrounds.trans hmax, rfl⟩
  | succ rounds ih =>
    rw [mergeOuts]
    split_ifs with hmore
    · obtain ⟨init, a, b, rfl⟩ := exists_append_pair (hmax.trans_lt hmore)
      have hlength : (init ++ [a + b]).length + 1 = (init ++ [a, b]).length := by simp
      have hsum : ((init ++ [a + b]).map UInt64.toNat).sum =
          ((init ++ [a, b]).map UInt64.toNat).sum := by
        simp only [List.map_append, List.map_cons, List.map_nil, List.sum_append, List.sum_cons,
          List.sum_nil, Nat.add_zero] at hfits ⊢
        rw [UInt64.toNat_add, Nat.mod_eq_of_lt (by omega)]
      rw [mergeLast_append]
      have hshort : (init ++ [a + b]).length ≤ rounds + 1 := by omega
      obtain ⟨hle, hkept⟩ := ih hshort (by rwa [hsum])
      exact ⟨hle, hkept.trans hsum⟩
    · exact ⟨Nat.not_lt.mp hmore, rfl⟩

theorem minerOutAmounts_spec (blockReward : UInt64) {maxOuts : Nat} (hmax : 1 ≤ maxOuts) :
    (minerOutAmounts blockReward maxOuts).length ≤ maxOuts ∧
      ((minerOutAmounts blockReward maxOuts).map UInt64.toNat).sum = blockReward.toNat := by
  have htotal := (decomposeAmountIntoDigits_splits blockReward defaultFee).total_eq
  rw [piecesTotal, ← Function.comp_def UInt64.toNat Piece.amount, ← List.map_map] at htotal
  obtain ⟨hle, hsum⟩ := mergeOuts_spec hmax (Nat.le_succ _) (htotal ▸ blockReward.toNat_lt)
  exact ⟨hle, hsum.trans htotal⟩

theorem exists_minerOuts {minerAddress : AccountPublicAddress} {txkey : TxKey}
    (hkeys : ∀ no, ∃ key, txkey.derivePublicKey minerAddress no = some key) (amounts : List UInt64)
    (start : Nat) :
    ∃ vout, (amounts.zipIdx start).mapM (minerOut minerAddress txkey) = some vout ∧
      vout.map TxOut.amount = amounts := by
  induction amounts generalizing start with
  | nil => exact ⟨[], rfl, rfl⟩
  | cons amount amounts ih =>
    obtain ⟨key, hkey⟩ := hkeys start
    obtain ⟨vout, hvout, hamounts⟩ := ih (start + 1)
    have hout : minerOut minerAddress txkey (amount, start) = some ⟨amount, .toKey key⟩ := by
      rw [minerOut, hkey]
      rfl
    refine ⟨⟨amount, .toKey key⟩ :: vout, ?_, by rw [List.map_cons, hamounts]⟩
    rw [List.zipIdx_cons, List.mapM_cons, hout, hvout]
    rfl

theorem exists_constructMinerTx {cfg : Config} {height medianSize currentBlockSize fee reward : UInt64}
    {minerAddress : AccountPublicAddress} {txkey : TxKey} {extraNonce : Bytes} {maxOuts : Nat}
    (hmax : 1 ≤ maxOuts) (hnonce : extraNonce.length ≤ txExtraNonceMaxCount)
    (hreward : getBlockReward cfg medianSize currentBlockSize height.toNat = some reward)
    (hkeys : ∀ no, ∃ key, txkey.derivePublicKey minerAddress no = some key)
    (hfits : reward.toNat + fee.toNat < 2 ^ 64) :
    ∃ tx, constructMinerTx cfg height medianSize currentBlockSize fee minerAddress txkey extraNonce
        maxOuts = some tx ∧
      tx.vout.length ≤ maxOuts ∧
      (tx.vout.map fun out => out.amount.toNat).sum = reward.toNat + fee.toNat := by
  have hblockReward : (reward + fee).toNat = reward.toNat + fee.toNat := by
    rw [UInt64.toNat_add, Nat.mod_eq_of_lt hfits]
  obtain ⟨hle, htotal⟩ := minerOutAmounts_spec (reward + fee) hmax
  obtain ⟨vout, hvout, hamounts⟩ := exists_minerOuts hkeys (minerOutAmounts (reward + fee) maxOuts) 0
  have hsum : (minerOutAmounts (reward + fee) maxOuts).sum = reward + fee := by
    apply UInt64.toNat_inj.mp
    rw [toNat_sum_of_lt (htotal ▸ (reward + fee).toNat_lt), htotal]
  obtain ⟨extra, hextra⟩ : ∃ extra, minerExtra txkey extraNonce = some extra := by
    rw [minerExtra]
    split_ifs
    · exact ⟨_, rfl⟩
    · exact ⟨_, if_neg (Nat.not_lt.mpr hnonce)⟩
  have heq : ∃ tx, constructMinerTx cfg height medianSize currentBlockSize fee minerAddress txkey
      extraNonce maxOuts = some tx ∧ tx.vout = vout := by
    rw [constructMinerTx, hextra, hreward, Option.bind_eq_bind, Option.bind_some, Option.bind_eq_bind,
      Option.bind_some, if_neg (Nat.not_lt.mpr hmax)]
    dsimp only
    rw [hvout, Option.bind_eq_bind, Option.bind_some, if_neg (not_not.mpr hsum)]
    exact ⟨_, rfl, rfl⟩
  obtain ⟨tx, htx, rfl⟩ := heq
  refine ⟨tx, htx, ?_, ?_⟩
  · rwa [← List.length_map TxOut.amount, hamounts]
  · rw [← hblockReward, ← htotal, ← hamounts, List.map_map]
    rfl

/-- Splitting loses nothing: neither into digits, nor by the strategies, nor for the reward of a
block. -/
theorem amounts_split_exactly :
    (∀ amount dustThreshold : UInt64, dustThreshold.toNat < 10 ^ 18 →
      SplitsInto dustThreshold (decomposeAmountIntoDigits amount dustThreshold) amount.toNat 1) ∧
    (∀ (dsts : List TxDestinationEntry) (changeDst : TxDestinationEntry) (dustThreshold : UInt64),
      dustThreshold.toNat < 10 ^ 18 →
        Conserves dsts changeDst dustThreshold (digitSplitStrategy dsts changeDst dustThreshold) ∧
        ∃ r, nullSplitStrategy dsts changeDst dustThreshold = some r ∧
          Conserves dsts changeDst dustThreshold r) ∧
    ∀ (cfg : Config) (height medianSize currentBlockSize fee reward : UInt64)
      (minerAddress : AccountPublicAddress) (txkey : TxKey) (extraNonce : Bytes) (maxOuts : Nat),
      1 ≤ maxOuts → extraNonce.length ≤ txExtraNonceMaxCount →
      getBlockReward cfg medianSize currentBlockSize height.toNat = some reward →
      (∀ no, ∃ key, txkey.derivePublicKey minerAddress no = some key) →
      reward.toNat + fee.toNat < 2 ^ 64 →
        ∃ tx, constructMinerTx cfg height medianSize currentBlockSize fee minerAddress txkey
            extraNonce maxOuts = some tx ∧
          tx.vout.length ≤ maxOuts ∧
          (tx.vout.map fun out => out.amount.toNat).sum = reward.toNat + fee.toNat := by
  refine ⟨fun amount dustThreshold _ => decomposeAmountIntoDigits_splits amount dustThreshold,
    fun dsts changeDst dustThreshold hthreshold =>
      ⟨digitSplitStrategy_conserves dsts changeDst dustThreshold,
        nullSplitStrategy_conserves dsts changeDst hthreshold⟩, ?_⟩
  intro cfg height medianSize currentBlockSize fee reward minerAddress txkey extraNonce maxOuts hmax
    hnonce hreward hkeys hfits
  exact exists_constructMinerTx hmax hnonce hreward hkeys hfits

/-- The reward of the first block with a fee, in at most two outputs. -/
theorem first_reward_split_exactly :
    ∃ tx, constructMinerTx ⟨false, true, 0, 2, 100⟩ 1 0 0 12345678 ⟨nullPkey, nullPkey⟩
        ⟨nullPkey, fun _ _ => some nullPkey⟩ [7] 2 = some tx ∧
      tx.vout.length ≤ 2 ∧
      (tx.vout.map fun out => out.amount.toNat).sum = 30000000000 + 12345678 :=
  amounts_split_exactly.2.2 ⟨false, true, 0, 2, 100⟩ 1 0 0 12345678 30000000000 ⟨nullPkey, nullPkey⟩
    ⟨nullPkey, fun _ _ => some nullPkey⟩ [7] 2 (by decide) (by decide) (by decide)
    (fun _ => ⟨nullPkey, rfl⟩) (by decide)

end Pebblecoin
