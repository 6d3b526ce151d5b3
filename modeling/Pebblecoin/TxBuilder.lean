import Mathlib.Data.List.Sort
import Pebblecoin.Control.Outcome
import Pebblecoin.Wallet

/-!
The builder that collects the inputs and the outputs of a transaction and signs it.
-/

namespace Pebblecoin

open Wire

/-- An output that is spent or voted with, among those it is mixed with. -/
structure TxSourceEntry where
  outputs : List (UInt64 × PublicKey)
  realOutput : Nat
  realOutTxKey : PublicKey
  realOutputInTxIndex : Nat
  cp : CoinType
  amountIn : UInt64
  amountOut : UInt64
  /-- The transfer that the entry was made of.  The source does not keep it. -/
  transfer : Nat
deriving DecidableEq

structure TxDestinationEntry where
  cp : CoinType
  amount : UInt64
  addr : AccountPublicAddress
deriving DecidableEq

/-- The key pair of a transaction, as far as its outputs need it. -/
structure TxKey where
  pub : PublicKey
  derivePublicKey : (addr : AccountPublicAddress) → (outputIndex : Nat) → Option PublicKey

/-- Ring signatures: the message, the key image and the entry that is signed for. -/
abbrev RingSigner := Hash → KeyImage → TxSourceEntry → List Signature

inductive TxBuilderState where
  | inProgress
  | finalized
deriving DecidableEq

structure TxBuilder where
  state : TxBuilderState
  tx : Transaction
  txkey : TxKey
  sourcesUsed : List TxSourceEntry
  /-- The position of the input of each source. -/
  sourceToVinIndex : List Nat

/-- Differences of the sorted offsets. -/
def absoluteOutputOffsetsToRelative (off : List UInt64) : List UInt64 :=
  go 0 (off.insertionSort (· ≤ ·))
where
  go (last : UInt64) : List UInt64 → List UInt64
    | [] => []
    | offset :: rest => (offset - last) :: go offset rest

def TxIn.kImage : TxIn → Option KeyImage
  | .toKey inp => some inp.kImage
  | .vote inp => some inp.ink.kImage
  | _ => none

namespace TxBuilder

def init (txkey : TxKey) (unlockTime : UInt64) (extra : Bytes) : TxBuilder where
  state := .inProgress
  tx :=
    { version := vanillaTransactionVersion
      unlockTime := unlockTime
      extra := extra ++ txExtraTagPubkey :: txkey.pub.1
      vin := []
      vout := []
      vinCoinTypes := []
      voutCoinTypes := []
      signatures := [] }
  txkey := txkey
  sourcesUsed := []
  sourceToVinIndex := []

def updateVersionTo (minVersion : UInt64) (tx : Transaction) : Transaction :=
  if tx.version < minVersion then { tx with version := minVersion } else tx

def addIn (inp : TxIn) (cp : CoinType) (b : TxBuilder) : TxBuilder :=
  let tx := updateVersionTo inp.minimumTxVersion (updateVersionTo cp.minimumTxVersion b.tx)
  { b with tx := { tx with vin := tx.vin ++ [inp], vinCoinTypes := tx.vinCoinTypes ++ [cp] } }

def addOut (out : TxOut) (cp : CoinType) (b : TxBuilder) : TxBuilder :=
  let tx := updateVersionTo out.minimumTxVersion (updateVersionTo cp.minimumTxVersion b.tx)
  { b with tx := { tx with vout := tx.vout ++ [out], voutCoinTypes := tx.voutCoinTypes ++ [cp] } }

section Inputs

variable (keys : AccountKeys)

def inputToKey (src : TxSourceEntry) : TxinToKey where
  amount := src.amountIn
  keyOffsets := absoluteOutputOffsetsToRelative (src.outputs.map Prod.fst)
  kImage := keys.generateKeyImage src.realOutTxKey src.realOutputInTxIndex

/-- A vote is a sequence number and the delegates voted for. -/
def inputOf (vote : Option (UInt16 × DelegateVotes)) (src : TxSourceEntry) : TxIn :=
  match vote with
  | none => .toKey (inputToKey keys src)
  | some (seq, votes) => .vote ⟨inputToKey keys src, seq, votes⟩

def useSource (src : TxSourceEntry) (b : TxBuilder) : TxBuilder :=
  { b with
    sourcesUsed := b.sourcesUsed ++ [src]
    sourceToVinIndex := b.sourceToVinIndex ++ [b.tx.vin.length - 1] }

def addSource (vote : Option (UInt16 × DelegateVotes)) (amounts : CurrencyMap × TxBuilder)
    (src : TxSourceEntry) : Option (CurrencyMap × TxBuilder) := do
  let real ← src.outputs[src.realOutput]?
  let inputAmounts ← amounts.1.add src.cp src.amountOut
  let inEphemeral ← keys.derivePublicKey src.realOutTxKey src.realOutputInTxIndex
  if inEphemeral ≠ real.2 then none
  else if vote.isSome ∧ src.cp ≠ cpXpb then none
  else some (inputAmounts, (amounts.2.addIn (inputOf keys vote src) src.cp).useSource src)

def addSources (vote : Option (UInt16 × DelegateVotes)) (sources : List TxSourceEntry)
    (b : TxBuilder) : Option (CurrencyMap × TxBuilder) :=
  sources.foldlM (addSource keys vote) (fun _ => 0, b)

end Inputs

def dstToOut (dst : TxDestinationEntry) (outputIndex : Nat) (txkey : TxKey) : Option TxOut :=
  if dst.amount = 0 then none
  else (txkey.derivePublicKey dst.addr outputIndex).map fun key => ⟨dst.amount, .toKey key⟩

def addDest (amounts : CurrencyMap × TxBuilder) (dst : TxDestinationEntry) :
    Option (CurrencyMap × TxBuilder) :=
  (dstToOut dst amounts.2.tx.vout.length amounts.2.txkey).map fun out =>
    (Function.update amounts.1 dst.cp (amounts.1 dst.cp + dst.amount), amounts.2.addOut out dst.cp)

def shuffleOuts (destinations : List TxDestinationEntry) : List TxDestinationEntry :=
  destinations.insertionSort fun de1 de2 => de1.amount ≤ de2.amount

/-- The outputs, if they are not worth more than the inputs. -/
def addDests (inputAmounts : CurrencyMap) (destinations : List TxDestinationEntry)
    (b : TxBuilder) : Option TxBuilder := do
  let (outputAmounts, b) ← (shuffleOuts destinations).foldlM addDest (fun _ => 0, b)
  if destinations.all fun dst => outputAmounts dst.cp ≤ inputAmounts dst.cp then some b else none

section Calls

variable (keys : AccountKeys)

def addSend (sources : List TxSourceEntry) (destinations : List TxDestinationEntry)
    (b : TxBuilder) : Option TxBuilder :=
  if b.state ≠ .inProgress then none
  else do
    let (inputAmounts, b) ← addSources keys none sources b
    b.addDests inputAmounts destinations

def addVote (sources : List TxSourceEntry) (seq : UInt16) (votes : DelegateVotes)
    (b : TxBuilder) : Option TxBuilder :=
  if b.state ≠ .inProgress then none
  else (addSources keys (some (seq, votes)) sources b).map Prod.snd

/-- The version may have changed with the inputs. -/
def updateVersion (tx : Transaction) : Transaction :=
  let tx := (tx.vin.zip tx.vinCoinTypes).foldl
    (fun tx inp => updateVersionTo inp.1.minimumTxVersion (updateVersionTo inp.2.minimumTxVersion tx))
    tx
  (tx.vout.zip tx.voutCoinTypes).foldl
    (fun tx out => updateVersionTo out.1.minimumTxVersion (updateVersionTo out.2.minimumTxVersion tx))
    tx

def signSource (sign : RingSigner) (prefixHash : Hash) (tx : Transaction)
    (source : TxSourceEntry × Nat) : Option Transaction := do
  let inp ← tx.vin[source.2]?
  let kImage ← inp.kImage
  some { tx with signatures := tx.signatures.set source.2 (sign prefixHash kImage source.1) }

def finalize (crypto : Crypto) (sign : RingSigner) (b : TxBuilder) : Option TxBuilder :=
  if b.state ≠ .inProgress then none
  else do
    let tx := updateVersion b.tx
    let tx := { tx with signatures := tx.vin.map fun _ => [] }
    let prefixHash ← getTransactionPrefixHash crypto tx.toTransactionPrefix
    let tx ← (b.sourcesUsed.zip b.sourceToVinIndex).foldlM (signSource sign prefixHash) tx
    let _ ← getTransactionHash crypto tx
    some { b with state := .finalized, tx := tx }

end Calls

section Added

variable {keys : AccountKeys} {b b' : TxBuilder} {sources : List TxSourceEntry}
  {vote : Option (UInt16 × DelegateVotes)}

theorem updateVersionTo_vin (v : UInt64) (tx : Transaction) : (updateVersionTo v tx).vin = tx.vin := by
  rw [updateVersionTo]
  split <;> rfl

theorem kImage_inputOf (src : TxSourceEntry) : (inputOf keys vote src).kImage =
    some (keys.generateKeyImage src.realOutTxKey src.realOutputInTxIndex) := by
  cases vote <;> rfl

/-- The inputs `ins` for the sources `sources` came at the end. -/
structure Appends (keys : AccountKeys) (sources : List TxSourceEntry) (b b' : TxBuilder) : Prop where
  state : b'.state = b.state
  sourcesUsed : b'.sourcesUsed = b.sourcesUsed ++ sources
  kImages : b'.tx.vin.map TxIn.kImage = b.tx.vin.map TxIn.kImage ++
    sources.map fun src => some (keys.generateKeyImage src.realOutTxKey src.realOutputInTxIndex)

theorem Appends.refl (b : TxBuilder) : Appends keys [] b b := by
  constructor <;> simp

theorem Appends.trans {more : List TxSourceEntry} {b'' : TxBuilder} (h : Appends keys sources b b')
    (h' : Appends keys more b' b'') : Appends keys (sources ++ more) b b'' where
  state := h'.state.trans h.state
  sourcesUsed := by rw [h'.sourcesUsed, h.sourcesUsed, List.append_assoc]
  kImages := by rw [h'.kImages, h.kImages, List.map_append, List.append_assoc]

theorem appends_addSource {amounts r : CurrencyMap × TxBuilder} {src : TxSourceEntry}
    (h : addSource keys vote amounts src = some r) : Appends keys [src] amounts.2 r.2 := by
  simp only [addSource, Option.bind_eq_bind, Option.bind_eq_some_iff] at h
  obtain ⟨real, -, inputAmounts, -, inEphemeral, -, h⟩ := h
  split_ifs at h
  rw [← Option.some.inj h]
  constructor
  · rfl
  · rfl
  · simp [useSource, addIn, updateVersionTo_vin, kImage_inputOf]

theorem appends_addSources {amounts r : CurrencyMap × TxBuilder}
    (h : sources.foldlM (addSource keys vote) amounts = some r) :
    Appends keys sources amounts.2 r.2 := by
  induction sources generalizing amounts with
  | nil =>
    rw [← Option.some.inj h]
    exact Appends.refl _
  | cons src sources ih =>
    rw [List.foldlM_cons] at h
    obtain ⟨next, hnext, hrest⟩ := Option.bind_eq_some_iff.mp h
    exact (appends_addSource hnext).trans (ih hrest)

variable (keys) in
theorem appends_addDest {amounts r : CurrencyMap × TxBuilder} {dst : TxDestinationEntry}
    (h : addDest amounts dst = some r) : Appends keys [] amounts.2 r.2 := by
  obtain ⟨out, -, rfl⟩ := Option.map_eq_some_iff.mp h
  constructor <;> simp [addOut, updateVersionTo_vin]

variable (keys) in
theorem appends_foldlM_addDest {dsts : List TxDestinationEntry} {amounts r : CurrencyMap × TxBuilder}
    (h : dsts.foldlM addDest amounts = some r) : Appends keys [] amounts.2 r.2 := by
  induction dsts generalizing amounts with
  | nil =>
    rw [← Option.some.inj h]
    exact Appends.refl _
  | cons dst dsts ih =>
    rw [List.foldlM_cons] at h
    obtain ⟨next, hnext, hrest⟩ := Option.bind_eq_some_iff.mp h
    exact (appends_addDest keys hnext).trans (ih hrest)

variable (keys) in
theorem appends_addDests {inputAmounts : CurrencyMap} {destinations : List TxDestinationEntry}
    (h : b.addDests inputAmounts destinations = some b') : Appends keys [] b b' := by
  obtain ⟨⟨outputAmounts, next⟩, hfold, h⟩ := Option.bind_eq_some_iff.mp h
  dsimp only at h
  split at h
  · rw [← Option.some.inj h]
    exact appends_foldlM_addDest keys hfold
  · cases h

theorem appends_addSend {destinations : List TxDestinationEntry}
    (h : b.addSend keys sources destinations = some b') : Appends keys sources b b' := by
  rw [addSend] at h
  split at h
  · cases h
  obtain ⟨r, hr, h⟩ := Option.bind_eq_some_iff.mp h
  have happends := (appends_addSources hr).trans (appends_addDests keys h)
  rwa [List.append_nil] at happends

theorem appends_addVote {seq : UInt16} {votes : DelegateVotes}
    (h : b.addVote keys sources seq votes = some b') : Appends keys sources b b' := by
  rw [addVote] at h
  split at h
  · cases h
  obtain ⟨r, hr, rfl⟩ := Option.map_eq_some_iff.mp h
  exact appends_addSources hr

theorem foldl_updateVersionTo_vin {α : Type} (f g : α → UInt64) (items : List α) (tx : Transaction) :
    (items.foldl (fun tx item => updateVersionTo (f item) (updateVersionTo (g item) tx)) tx).vin =
      tx.vin := by
  induction items generalizing tx with
  | nil => rfl
  | cons item items ih => rw [List.foldl_cons, ih, updateVersionTo_vin, updateVersionTo_vin]

theorem updateVersion_vin (tx : Transaction) : (updateVersion tx).vin = tx.vin := by
  rw [updateVersion, foldl_updateVersionTo_vin, foldl_updateVersionTo_vin]

theorem finalize_eq_some {crypto : Crypto} {sign : RingSigner} (h : b.finalize crypto sign = some b') :
    b'.sourcesUsed = b.sourcesUsed ∧ b'.tx.vin = b.tx.vin := by
  rw [finalize] at h
  split at h
  · cases h
  simp only [Option.bind_eq_bind, Option.bind_eq_some_iff] at h
  obtain ⟨prefixHash, -, tx, hsigned, -, -, h⟩ := h
  rw [← Option.some.inj h]
  refine ⟨rfl, ?_⟩
  suffices hvin : ∀ (tx tx' : Transaction) (sources : List (TxSourceEntry × Nat)),
      sources.foldlM (signSource sign prefixHash) tx = some tx' → tx'.vin = tx.vin from
    (hvin _ _ _ hsigned).trans (updateVersion_vin b.tx)
  intro tx tx' sources hfold
  induction sources generalizing tx with
  | nil => rw [← Option.some.inj hfold]
  | cons source sources ih =>
    rw [List.foldlM_cons] at hfold
    obtain ⟨next, hnext, hrest⟩ := Option.bind_eq_some_iff.mp hfold
    rw [ih next hrest]
    simp only [signSource, Option.bind_eq_bind, Option.bind_eq_some_iff] at hnext
    obtain ⟨inp, -, kImage, -, hnext⟩ := hnext
    rw [← Option.some.inj hnext]

end Added

end TxBuilder

end Pebblecoin
