import Pebblecoin.Containers.Sampling
import Pebblecoin.ValidateTx

/-!
The outputs that a wallet is given to mix with.
-/

namespace Pebblecoin

open Containers

structure OutEntry where
  globalAmountIndex : Nat
  outKey : PublicKey

structure OutsForAmount where
  amount : UInt64
  outs : List OutEntry

namespace Storage

section RandomOuts

variable (env : Env) (now : UInt64) (s : Storage)

/-- The entry for one position of the index, if the output may be spent. -/
def addOutToGetRandomOuts (amountOuts : List (Hash × Nat)) (i : Nat) : Option OutEntry := do
  let out ← amountOuts[i]?
  let entry ← s.ledger.transactions out.1
  let txOut ← entry.tx.vout[out.2]?
  match txOut.target with
  | .toKey key =>
    if s.isTxSpendtimeUnlocked env now entry.tx.unlockTime then some ⟨i, key⟩ else none
  | _ => none

/-- Whether the transaction is buried deep enough; none if it is not stored. -/
def isOld (out : Hash × Nat) : Option Bool :=
  (s.ledger.transactions out.1).map fun entry =>
    decide (entry.keeperBlockHeight + cryptonoteMinedMoneyUnlockWindow ≤ s.getCurrentBlockchainHeight)

/-- The scan goes down from this position. -/
def findEndFrom (amountOuts : List (Hash × Nat)) : Nat → Nat
  | 0 => 0
  | i + 1 =>
    match amountOuts[i]?.bind s.isOld with
    | none => 0
    | some true => i + 1
    | some false => findEndFrom amountOuts i

def findEndOfAllowedIndex (amountOuts : List (Hash × Nat)) : Nat :=
  s.findEndFrom amountOuts amountOuts.length

/-- All outputs if there are not more than asked for, otherwise random ones. -/
def randomOutsForAmount (outsCount : Nat) (rand : Nat → Nat) (rounds drawn : Nat)
    (amountOuts : List (Hash × Nat)) (upIndexLimit : Nat) : Option (List OutEntry × Nat) :=
  if outsCount < amountOuts.length then
    drawLoop upIndexLimit outsCount (s.addOutToGetRandomOuts env now amountOuts) rand rounds drawn [] []
  else
    some ((List.range upIndexLimit).filterMap (s.addOutToGetRandomOuts env now amountOuts), drawn)

/-- What is returned, with the answer for each amount.  For each amount there are so many rounds
for the numbers of the generator; if they do not suffice there is no result. -/
def getRandomOutsForAmounts (outsCount : Nat) (rand : Nat → Nat) (rounds : Nat) :
    (amounts : List UInt64) → (drawn : Nat) → Option (Bool × List OutsForAmount)
  | [], _ => some (true, [])
  | amount :: amounts, drawn =>
    let amountOuts := s.ledger.outputs (cpXpb, amount)
    let upIndexLimit := s.findEndOfAllowedIndex amountOuts
    if amountOuts.length < upIndexLimit then some (false, [⟨amount, []⟩])
    else do
      let (outs, drawn) ←
        s.randomOutsForAmount env now outsCount rand rounds drawn amountOuts upIndexLimit
      let (ok, rest) ← getRandomOutsForAmounts outsCount rand rounds amounts drawn
      some (ok, ⟨amount, outs⟩ :: rest)

end RandomOuts

variable {env : Env} {now : UInt64} {s : Storage} {amountOuts : List (Hash × Nat)}

theorem findEndFrom_le (amountOuts : List (Hash × Nat)) (i : Nat) : s.findEndFrom amountOuts i ≤ i := by
  induction i with
  | zero => exact Nat.le_refl 0
  | succ i ih =>
    rw [findEndFrom]
    split
    · exact Nat.zero_le _
    · exact Nat.le_refl _
    · exact Nat.le_succ_of_le ih

theorem findEndOfAllowedIndex_le (amountOuts : List (Hash × Nat)) :
    s.findEndOfAllowedIndex amountOuts ≤ amountOuts.length :=
  findEndFrom_le _ _

theorem isOld_of_findEndFrom {i last : Nat} (h : s.findEndFrom amountOuts i = last + 1) :
    amountOuts[last]?.bind s.isOld = some true := by
  induction i with
  | zero => cases h
  | succ i ih =>
    rw [findEndFrom] at h
    split at h
    · cases h
    · rename_i hold
      obtain rfl := Nat.succ.inj h
      exact hold
    · exact ih h

/-- What an entry says of the output at its position. -/
structure Opens (env : Env) (now : UInt64) (s : Storage) (amountOuts : List (Hash × Nat))
    (oen : OutEntry) (out : Hash × Nat) (entry : TransactionChainEntry) : Prop where
  position : amountOuts[oen.globalAmountIndex]? = some out
  stored : s.ledger.transactions out.1 = some entry
  key : ∃ txOut, entry.tx.vout[out.2]? = some txOut ∧ txOut.target = .toKey oen.outKey
  unlocked : s.isTxSpendtimeUnlocked env now entry.tx.unlockTime = true

theorem addOutToGetRandomOuts_inv {i : Nat} {oen : OutEntry}
    (h : s.addOutToGetRandomOuts env now amountOuts i = some oen) :
    oen.globalAmountIndex = i ∧ ∃ out entry, Opens env now s amountOuts oen out entry := by
  obtain ⟨out, hout, h⟩ := Option.bind_eq_some_iff.mp h
  obtain ⟨entry, hentry, h⟩ := Option.bind_eq_some_iff.mp h
  obtain ⟨txOut, htxOut, h⟩ := Option.bind_eq_some_iff.mp h
  split at h
  · rename_i key hkey
    split at h
    · rename_i hunlocked
      obtain rfl := Option.some.inj h
      exact ⟨rfl, out, entry, hout, hentry, ⟨txOut, htxOut, hkey⟩, hunlocked⟩
    · cases h
  · cases h

/-- Positions below the limit, each at most once, and not more than asked for. -/
structure GivesOuts (env : Env) (now : UInt64) (s : Storage) (outsCount : Nat)
    (amountOuts : List (Hash × Nat)) (outs : List OutEntry) : Prop where
  length_le : outs.length ≤ outsCount
  nodup : (outs.map (·.globalAmountIndex)).Nodup
  allowed : ∀ oen ∈ outs, oen.globalAmountIndex < s.findEndOfAllowedIndex amountOuts ∧
    ∃ out entry, Opens env now s amountOuts oen out entry

theorem GivesOuts.of_sampled {outsCount : Nat} {used : List Nat} {outs : List OutEntry}
    (h : Sampled (s.findEndOfAllowedIndex amountOuts) (s.addOutToGetRandomOuts env now amountOuts)
      used outs) (hlength : outs.length ≤ outsCount) : GivesOuts env now s outsCount amountOuts outs := by
  obtain ⟨hnodup, hlt, rfl⟩ := h
  refine ⟨hlength, ?_, fun oen hoen => ?_⟩
  · have hpositions : (used.filterMap (s.addOutToGetRandomOuts env now amountOuts)).map
        (·.globalAmountIndex) = used.filter fun i =>
          (s.addOutToGetRandomOuts env now amountOuts i).isSome := by
      rw [← List.filterMap_eq_filter, List.map_filterMap]
      refine List.filterMap_congr fun i _ => ?_
      cases hadd : s.addOutToGetRandomOuts env now amountOuts i with
      | none => simp [Option.guard, hadd]
      | some oen => simp [Option.guard, hadd, (addOutToGetRandomOuts_inv hadd).1]
    rw [hpositions]
    exact hnodup.filter _
  · obtain ⟨i, hi, hadd⟩ := List.mem_filterMap.mp hoen
    obtain ⟨hindex, hopens⟩ := addOutToGetRandomOuts_inv hadd
    rw [hindex]
    exact ⟨hlt i hi, hopens⟩

theorem randomOutsForAmount_givesOuts {outsCount rounds drawn : Nat} {rand : Nat → Nat}
    {r : List OutEntry × Nat}
    (h : s.randomOutsForAmount env now outsCount rand rounds drawn amountOuts
      (s.findEndOfAllowedIndex amountOuts) = some r) : GivesOuts env now s outsCount amountOuts r.1 := by
  rw [randomOutsForAmount] at h
  split at h
  · obtain ⟨hlength, used, hsampled⟩ := drawLoop_sampled .nil (Nat.zero_le _) h
    exact .of_sampled hsampled hlength
  · rename_i hfew
    obtain rfl := Option.some.inj h
    refine .of_sampled ⟨List.nodup_range, fun i hi => List.mem_range.mp hi, rfl⟩ ?_
    have hle : s.findEndOfAllowedIndex amountOuts ≤ amountOuts.length := findEndOfAllowedIndex_le _
    have hlength := List.length_filterMap_le (s.addOutToGetRandomOuts env now amountOuts)
      (List.range (s.findEndOfAllowedIndex amountOuts))
    rw [List.length_range] at hlength
    exact hlength.trans (hle.trans (Nat.not_lt.mp hfew))

theorem getRandomOutsForAmounts_cons (outsCount : Nat) (rand : Nat → Nat) (rounds drawn : Nat)
    (amount : UInt64) (amounts : List UInt64) :
    s.getRandomOutsForAmounts env now outsCount rand rounds (amount :: amounts) drawn =
      (s.randomOutsForAmount env now outsCount rand rounds drawn (s.ledger.outputs (cpXpb, amount))
        (s.findEndOfAllowedIndex (s.ledger.outputs (cpXpb, amount)))).bind fun r =>
          (s.getRandomOutsForAmounts env now outsCount rand rounds amounts r.2).bind fun rest =>
            some (rest.1, ⟨amount, r.1⟩ :: rest.2) := by
  rw [getRandomOutsForAmounts]
  exact if_neg (Nat.not_lt.mpr (findEndOfAllowedIndex_le _))

theorem getRandomOutsForAmounts_givesOuts {outsCount rounds drawn : Nat} {rand : Nat → Nat}
    {amounts : List UInt64} {ok : Bool} {res : List OutsForAmount}
    (h : s.getRandomOutsForAmounts env now outsCount rand rounds amounts drawn = some (ok, res)) :
    ok = true ∧ res.map (·.amount) = amounts ∧
      ∀ o ∈ res, GivesOuts env now s outsCount (s.ledger.outputs (cpXpb, o.amount)) o.outs := by
  induction amounts generalizing drawn ok res with
  | nil =>
    obtain ⟨rfl, rfl⟩ := Prod.mk.inj (Option.some.inj h)
    exact ⟨rfl, rfl, fun o ho => absurd ho List.not_mem_nil⟩
  | cons amount amounts ih =>
    rw [getRandomOutsForAmounts_cons] at h
    obtain ⟨⟨outs, drawn'⟩, houts, h⟩ := Option.bind_eq_some_iff.mp h
    obtain ⟨⟨ok', rest⟩, hrest, h⟩ := Option.bind_eq_some_iff.mp h
    obtain ⟨rfl, rfl⟩ := Prod.mk.inj (Option.some.inj h)
    obtain ⟨hok, hamounts, hgives⟩ := ih hrest
    refine ⟨hok, by rw [List.map_cons, hamounts], fun o ho => ?_⟩
    rcases List.mem_cons.mp ho with rfl | ho
    · exact randomOutsForAmount_givesOuts houts
    · exact hgives o ho

section Ends

variable {outsCount rounds drawn : Nat} {rand : Nat → Nat}

theorem randomOutsForAmount_add {upIndexLimit : Nat} {r : List OutEntry × Nat} (more : Nat)
    (h : s.randomOutsForAmount env now outsCount rand rounds drawn amountOuts upIndexLimit = some r) :
    s.randomOutsForAmount env now outsCount rand (rounds + more) drawn amountOuts upIndexLimit =
      some r := by
  rw [randomOutsForAmount] at h ⊢
  split at h
  · rename_i hmany
    rw [if_pos hmany]
    exact drawLoop_add more h
  · rename_i hfew
    rw [if_neg hfew]
    exact h

theorem getRandomOutsForAmounts_add {amounts : List UInt64} {r : Bool × List OutsForAmount}
    (more : Nat) (h : s.getRandomOutsForAmounts env now outsCount rand rounds amounts drawn = some r) :
    s.getRandomOutsForAmounts env now outsCount rand (rounds + more) amounts drawn = some r := by
  induction amounts generalizing drawn r with
  | nil => exact h
  | cons amount amounts ih =>
    rw [getRandomOutsForAmounts_cons] at h ⊢
    obtain ⟨outs, houts, h⟩ := Option.bind_eq_some_iff.mp h
    obtain ⟨rest, hrest, h⟩ := Option.bind_eq_some_iff.mp h
    rw [randomOutsForAmount_add more houts, Option.bind_some, ih hrest, Option.bind_some]
    exact h

theorem exists_randomOutsForAmount (hrand : Fair rand) (outsCount drawn : Nat)
    (amountOuts : List (Hash × Nat)) (upIndexLimit : Nat) :
    ∃ rounds r, s.randomOutsForAmount env now outsCount rand rounds drawn amountOuts upIndexLimit =
      some r := by
  by_cases hmany : outsCount < amountOuts.length
  · obtain ⟨rounds, r, hr⟩ : ∃ rounds r, drawLoop upIndexLimit outsCount
        (s.addOutToGetRandomOuts env now amountOuts) rand rounds drawn [] [] = some r :=
      exists_drawLoop hrand .nil drawn
    refine ⟨rounds, r, ?_⟩
    rw [randomOutsForAmount, if_pos hmany]
    exact hr
  · exact ⟨0, _, if_neg hmany⟩

theorem exists_getRandomOutsForAmounts (hrand : Fair rand) (outsCount : Nat) (amounts : List UInt64)
    (drawn : Nat) :
    ∃ rounds r, s.getRandomOutsForAmounts env now outsCount rand rounds amounts drawn = some r := by
  induction amounts generalizing drawn with
  | nil => exact ⟨0, (true, []), rfl⟩
  | cons amount amounts ih =>
    obtain ⟨rounds, outs, houts⟩ := exists_randomOutsForAmount hrand outsCount drawn
      (s.ledger.outputs (cpXpb, amount)) (s.findEndOfAllowedIndex (s.ledger.outputs (cpXpb, amount)))
    obtain ⟨rounds', rest, hrest⟩ := ih outs.2
    refine ⟨rounds + rounds', (rest.1, ⟨amount, outs.1⟩ :: rest.2), ?_⟩
    rw [getRandomOutsForAmounts_cons, randomOutsForAmount_add rounds' houts, Option.bind_some,
      Nat.add_comm, getRandomOutsForAmounts_add rounds hrest, Option.bind_some]

end Ends

end Storage

end Pebblecoin
