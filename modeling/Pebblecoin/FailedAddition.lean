import Pebblecoin.MainChainTxs

/-!
Transactions that the checks accept but that are not added, and what the clean-up makes of
the tables.
-/

namespace Pebblecoin

open Containers Control

namespace InputTables

variable {crypto : Crypto} {height : Nat} {popping : Bool} {vin : List TxIn} {l l' : InputTables}

end InputTables

namespace Storage

variable {env : Env} {now : UInt64} {tx : Transaction} {txId : Hash} {isMinerTx : Bool}
  {s : Storage}

end Storage

end Pebblecoin
