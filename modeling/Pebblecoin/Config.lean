import Pebblecoin.Basic

/-!
The network configuration, the checkpoints and the constants of the protocol.
-/

namespace Pebblecoin

open Containers

/-- The global configuration variables that modelled code reads. -/
structure Config where
  testnet : Bool
  noRewardRamp : Bool
  dposRegistrationStartBlock : Nat
  dposSwitchBlock : Nat
  dposNumDelegates : Nat
deriving DecidableEq, Repr

namespace Config

def mainnet : Config := ⟨false, false, 83120, 85300, 100⟩

def inPosEra (cfg : Config) (height : Nat) : Bool :=
  cfg.dposSwitchBlock ≤ height

def difficultyTarget (cfg : Config) : Nat :=
  if cfg.testnet then 60 else 120

def dayHeight (cfg : Config) : Nat := 60 * 60 * 24 / cfg.difficultyTarget
def weekHeight (cfg : Config) : Nat := cfg.dayHeight * 7
def yearHeight (cfg : Config) : Nat := cfg.dayHeight * 365

end Config

def coin : UInt64 := 100000000
def cryptonoteMaxBlockNumber : Nat := 500000000
def cryptonoteMaxTxSize : Nat := 1000000000
def cryptonoteMinedMoneyUnlockWindow : Nat := 10
def cryptonoteBlockFutureTimeLimit : UInt64 := 60 * 60 * 2
def cryptonoteDposBlockFutureTimeLimit : UInt64 := 15
def cryptonoteDposBlockMinimumBlockSpacing : UInt64 := 5
def blockchainTimestampCheckWindow : Nat := 60
def cryptonoteRewardBlocksWindow : Nat := 100
def cryptonoteBlockGrantedFullRewardZone : UInt64 := 10000
def difficultyWindow : Nat := 72
def difficultyCut : Nat := 6
def difficultyBlocksCount : Nat := difficultyWindow
def dposBlockDifficulty : UInt64 := 0xffffffff
def dposDelegateSlotTime : UInt64 := 45
def boulderhash2SwitchBlock : Nat := 20250
def boulderhash2SwitchEasyWindow : Nat := difficultyWindow
def dposRegistrationFeeMultiple : UInt64 := 100
def dposMinRegistrationFee : UInt64 := 5 * coin

/-- Checkpointed heights with the block ids expected there. -/
abbrev Checkpoints := OrdMap Nat Hash

namespace Checkpoints

def isInCheckpointZone (points : Checkpoints) (height : Nat) : Bool :=
  points.toList.getLast?.any fun p => height ≤ p.1

/-- Whether the id passes, and whether the height is a checkpoint at all. -/
def checkBlock (points : Checkpoints) (height : Nat) (id : Hash) : Bool × Bool :=
  match points.find? height with
  | none => (true, false)
  | some expected => (expected = id, true)

/-- The last checkpoint the chain has reached must lie below the block. -/
def isAlternativeBlockAllowed (points : Checkpoints) (blockchainHeight blockHeight : Nat) :
    Bool :=
  if blockHeight = 0 then false
  else
    match (points.toList.filter fun p => p.1 ≤ blockchainHeight).getLast? with
    | none => true
    | some p => p.1 < blockHeight

end Checkpoints

end Pebblecoin
