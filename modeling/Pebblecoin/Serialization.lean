import Pebblecoin.Basic
import Pebblecoin.Wire.Codec

/-!
The binary archive format of transactions.
-/

namespace Pebblecoin

open Wire Wire.Codec

namespace Serialization

def varint64 : Codec UInt64 :=
  (varint 64 width64_pos width64_le).iso UInt64.ofNat UInt64.toNat (fun _ => UInt64.ofNat_toNat)
    (fun _ h => UInt64.toNat_ofNat_of_lt h)

def varint32 : Codec UInt32 :=
  (varint 32 (by omega) (by omega)).iso UInt32.ofNat UInt32.toNat (fun _ => UInt32.ofNat_toNat)
    (fun _ h => UInt32.toNat_ofNat_of_lt h)

def varint16 : Codec UInt16 :=
  (varint 16 (by omega) (by omega)).iso UInt16.ofNat UInt16.toNat (fun _ => UInt16.ofNat_toNat)
    (fun _ h => UInt16.toNat_ofNat_of_lt h)

def varint8 : Codec UInt8 :=
  (varint 8 (by omega) (by omega)).iso UInt8.ofNat UInt8.toNat (fun _ => UInt8.ofNat_toNat)
    (fun _ h => UInt8.toNat_ofNat_of_lt h)

def uint16 : Codec UInt16 :=
  (raw 2).iso (fun bs => UInt16.ofNat (decodeLE bs)) (fun n => encodeLE 2 n.toNat)
    (fun n => by rw [decodeLE_encodeLE n.toNat_lt, UInt16.ofNat_toNat])
    (fun bs h => by
      have hlt := decodeLE_lt bs
      rw [show bs.length = 2 from h] at hlt
      rw [UInt16.toNat_ofNat_of_lt' hlt, ← show bs.length = 2 from h, encodeLE_decodeLE])

def uint32 : Codec UInt32 :=
  (raw 4).iso (fun bs => UInt32.ofNat (decodeLE bs)) (fun n => encodeLE 4 n.toNat)
    (fun n => by rw [decodeLE_encodeLE n.toNat_lt, UInt32.ofNat_toNat])
    (fun bs h => by
      have hlt := decodeLE_lt bs
      rw [show bs.length = 4 from h] at hlt
      rw [UInt32.toNat_ofNat_of_lt' hlt, ← show bs.length = 4 from h, encodeLE_decodeLE])

def uint64 : Codec UInt64 :=
  (raw 8).iso (fun bs => UInt64.ofNat (decodeLE bs)) (fun n => encodeLE 8 n.toNat)
    (fun n => by rw [decodeLE_encodeLE n.toNat_lt, UInt64.ofNat_toNat])
    (fun bs h => by
      have hlt := decodeLE_lt bs
      rw [show bs.length = 8 from h] at hlt
      rw [UInt64.toNat_ofNat_of_lt' hlt, ← show bs.length = 8 from h, encodeLE_decodeLE])

def blob (n : Nat) : Codec (Blob n) :=
  (raw n).iso (fun bs => if h : bs.length = n then ⟨bs, h⟩ else Blob.null n) Blob.bytes
    (fun b => by simp [b.size_eq])
    (fun bs h => by simp [show bs.length = n from h])

theorem writeVarint_length_pos (n : Nat) : 1 ≤ (writeVarint n).length := by
  rw [writeVarint, writeVarintAux]
  split_ifs <;> simp

theorem varint64_nonEmpty : varint64.NonEmpty := fun _ _ => writeVarint_length_pos _

theorem byte_nonEmpty : byte.NonEmpty := fun _ _ => le_rfl

theorem uint16_nonEmpty : uint16.NonEmpty := fun n _ => by
  change 1 ≤ (encodeLE 2 n.toNat).length
  simp

theorem blob_nonEmpty {n : Nat} (hn : 1 ≤ n) : (blob n).NonEmpty := fun b _ => by
  change 1 ≤ b.bytes.length
  rw [b.size_eq]
  exact hn

theorem blob32_nonEmpty : (blob 32).NonEmpty := blob_nonEmpty (by omega)

def byteVector : Codec Bytes := vector byte byte_nonEmpty

def txoutToScript : Codec TxoutToScript :=
  ((vector (blob 32) blob32_nonEmpty).pair byteVector).iso
    (fun p => ⟨p.1, p.2⟩) (fun o => (o.keys, o.script)) (fun _ => rfl) (fun _ _ => rfl)

def txoutTargetTag : TxoutTarget → UInt8
  | .toScript _ => 0x0
  | .toScripthash _ => 0x1
  | .toKey _ => 0x2

def txoutTargetArms : List (UInt8 × Codec TxoutTarget) :=
  [(0x0, txoutToScript.arm .toScript (fun | .toScript o => some o | _ => none)
      (fun {_ b} => by cases b <;> simp [eq_comm])),
    (0x1, (blob 32).arm .toScripthash (fun | .toScripthash h => some h | _ => none)
      (fun {_ b} => by cases b <;> simp [eq_comm])),
    (0x2, (blob 32).arm .toKey (fun | .toKey k => some k | _ => none)
      (fun {_ b} => by cases b <;> simp [eq_comm]))]

def txoutTarget : Codec TxoutTarget :=
  tagged txoutTargetTag txoutTargetArms (by
    simp only [txoutTargetArms, List.forall_mem_cons]
    refine ⟨?_, ?_, ?_, by simp⟩
    all_goals
      rintro b ⟨a, rfl, -⟩
      rfl)

def txOut : Codec TxOut :=
  (varint64.pair txoutTarget).iso (fun p => ⟨p.1, p.2⟩) (fun o => (o.amount, o.target))
    (fun _ => rfl) (fun _ _ => rfl)

theorem txOut_nonEmpty : txOut.NonEmpty := fun o _ => by
  have := writeVarint_length_pos o.amount.toNat
  change 1 ≤ (writeVarint o.amount.toNat ++ txoutTarget.write o.target).length
  rw [List.length_append]
  omega

def accountPublicAddress : Codec AccountPublicAddress :=
  ((blob 32).pair (blob 32)).iso (fun p => ⟨p.1, p.2⟩)
    (fun a => (a.spendPublicKey, a.viewPublicKey)) (fun _ => rfl) (fun _ _ => rfl)

def txinToScript : Codec TxinToScript :=
  ((blob 32).pair (varint64.pair byteVector)).iso (fun p => ⟨p.1, p.2.1, p.2.2⟩)
    (fun i => (i.prev, i.prevout, i.sigset)) (fun _ => rfl) (fun _ _ => rfl)

def txinToScripthash : Codec TxinToScripthash :=
  ((blob 32).pair (varint64.pair (txoutToScript.pair byteVector))).iso
    (fun p => ⟨p.1, p.2.1, p.2.2.1, p.2.2.2⟩)
    (fun i => (i.prev, i.prevout, i.script, i.sigset)) (fun _ => rfl) (fun _ _ => rfl)

def txinToKey : Codec TxinToKey :=
  (varint64.pair ((vector varint64 varint64_nonEmpty).pair (blob 32))).iso
    (fun p => ⟨p.1, p.2.1, p.2.2⟩) (fun i => (i.amount, i.keyOffsets, i.kImage))
    (fun _ => rfl) (fun _ _ => rfl)

def txinMint : Codec TxinMint :=
  (varint64.pair (string.pair (varint64.pair (varint64.pair (blob 32))))).iso
    (fun p => ⟨p.1, p.2.1, p.2.2.1, p.2.2.2.1, p.2.2.2.2⟩)
    (fun i => (i.currency, i.description, i.decimals, i.amount, i.remintKey))
    (fun _ => rfl) (fun _ _ => rfl)

def txinRemint : Codec TxinRemint :=
  (varint64.pair (varint64.pair ((blob 32).pair (blob 64)))).iso
    (fun p => ⟨p.1, p.2.1, p.2.2.1, p.2.2.2⟩)
    (fun i => (i.currency, i.amount, i.newRemintKey, i.sig)) (fun _ => rfl) (fun _ _ => rfl)

def txinCreateContract : Codec TxinCreateContract :=
  (varint64.pair (string.pair ((blob 32).pair
      (varint32.pair (varint64.pair varint32))))).iso
    (fun p => ⟨p.1, p.2.1, p.2.2.1, p.2.2.2.1, p.2.2.2.2.1, p.2.2.2.2.2⟩)
    (fun i => (i.contract, i.description, i.gradingKey, i.feeScale, i.expiryBlock,
      i.defaultGrade)) (fun _ => rfl) (fun _ _ => rfl)

def txinMintContract : Codec TxinMintContract :=
  (varint64.pair (varint64.pair varint64)).iso (fun p => ⟨p.1, p.2.1, p.2.2⟩)
    (fun i => (i.contract, i.backedByCurrency, i.amount)) (fun _ => rfl) (fun _ _ => rfl)

/-- A pair is an array of length two. -/
def feeAmount : Codec (UInt64 × UInt64) :=
  ((varint64.guarded (· = 2)).pair (uint64.pair uint64)).iso Prod.snd (fun p => (2, p))
    (fun _ => rfl) (by
      rintro ⟨n, p⟩ ⟨⟨-, hn⟩, -⟩
      obtain rfl : n = 2 := of_decide_eq_true hn
      rfl)

theorem feeAmount_nonEmpty : feeAmount.NonEmpty := fun p _ => by
  have := writeVarint_length_pos (2 : UInt64).toNat
  change 1 ≤ (writeVarint (2 : UInt64).toNat ++ (uint64.pair uint64).write p).length
  rw [List.length_append]
  omega

def txinGradeContract : Codec TxinGradeContract :=
  (varint64.pair (varint32.pair ((Codec.map feeAmount feeAmount_nonEmpty).pair (blob 64)))).iso
    (fun p => ⟨p.1, p.2.1, p.2.2.1, p.2.2.2⟩)
    (fun i => (i.contract, i.grade, i.feeAmounts, i.sig)) (fun _ => rfl) (fun _ _ => rfl)

def txinResolveBcCoins : Codec TxinResolveBcCoins :=
  (varint64.pair (varint8.pair (varint64.pair (varint64.pair varint64)))).iso
    (fun p => ⟨p.1, p.2.1, p.2.2.1, p.2.2.2.1, p.2.2.2.2⟩)
    (fun i => (i.contract, i.isBackingCoins, i.backingCurrency, i.sourceAmount, i.gradedAmount))
    (fun _ => rfl) (fun _ _ => rfl)

def txinFuseBcCoins : Codec TxinFuseBcCoins :=
  (varint64.pair (varint64.pair varint64)).iso (fun p => ⟨p.1, p.2.1, p.2.2⟩)
    (fun i => (i.contract, i.backingCurrency, i.amount)) (fun _ => rfl) (fun _ _ => rfl)

def txinRegisterDelegate : Codec TxinRegisterDelegate :=
  (varint16.pair (varint64.pair accountPublicAddress)).iso (fun p => ⟨p.1, p.2.1, p.2.2⟩)
    (fun i => (i.delegateId, i.registrationFee, i.delegateAddress))
    (fun _ => rfl) (fun _ _ => rfl)

def txinVote : Codec TxinVote :=
  (txinToKey.pair (varint16.pair (Codec.set uint16 uint16_nonEmpty))).iso
    (fun p => ⟨p.1, p.2.1, p.2.2⟩) (fun i => (i.ink, i.seq, i.votes))
    (fun _ => rfl) (fun _ _ => rfl)

def txInTag : TxIn → UInt8
  | .gen _ => 0xff
  | .toScript _ => 0x0
  | .toScripthash _ => 0x1
  | .toKey _ => 0x2
  | .mint _ => 0x3
  | .remint _ => 0x4
  | .createContract _ => 0x5
  | .mintContract _ => 0x6
  | .gradeContract _ => 0x7
  | .resolveBcCoins _ => 0x8
  | .fuseBcCoins _ => 0x9
  | .registerDelegate _ => 0xa
  | .vote _ => 0xb

def txInArms : List (UInt8 × Codec TxIn) :=
  [(0xff, varint64.arm .gen (fun | .gen i => some i | _ => none)
      (fun {_ b} => by cases b <;> simp [eq_comm])),
    (0x0, txinToScript.arm .toScript (fun | .toScript i => some i | _ => none)
      (fun {_ b} => by cases b <;> simp [eq_comm])),
    (0x1, txinToScripthash.arm .toScripthash (fun | .toScripthash i => some i | _ => none)
      (fun {_ b} => by cases b <;> simp [eq_comm])),
    (0x2, txinToKey.arm .toKey (fun | .toKey i => some i | _ => none)
      (fun {_ b} => by cases b <;> simp [eq_comm])),
    (0x3, txinMint.arm .mint (fun | .mint i => some i | _ => none)
      (fun {_ b} => by cases b <;> simp [eq_comm])),
    (0x4, txinRemint.arm .remint (fun | .remint i => some i | _ => none)
      (fun {_ b} => by cases b <;> simp [eq_comm])),
    (0x5, txinCreateContract.arm .createContract (fun | .createContract i => some i | _ => none)
      (fun {_ b} => by cases b <;> simp [eq_comm])),
    (0x6, txinMintContract.arm .mintContract (fun | .mintContract i => some i | _ => none)
      (fun {_ b} => by cases b <;> simp [eq_comm])),
    (0x7, txinGradeContract.arm .gradeContract (fun | .gradeContract i => some i | _ => none)
      (fun {_ b} => by cases b <;> simp [eq_comm])),
    (0x8, txinResolveBcCoins.arm .resolveBcCoins (fun | .resolveBcCoins i => some i | _ => none)
      (fun {_ b} => by cases b <;> simp [eq_comm])),
    (0x9, txinFuseBcCoins.arm .fuseBcCoins (fun | .fuseBcCoins i => some i | _ => none)
      (fun {_ b} => by cases b <;> simp [eq_comm])),
    (0xa, txinRegisterDelegate.arm .registerDelegate (fun | .registerDelegate i => some i | _ => none)
      (fun {_ b} => by cases b <;> simp [eq_comm])),
    (0xb, txinVote.arm .vote (fun | .vote i => some i | _ => none)
      (fun {_ b} => by cases b <;> simp [eq_comm]))]

def txIn : Codec TxIn :=
  tagged txInTag txInArms (by
    simp only [txInArms, List.forall_mem_cons]
    refine ⟨?_, ?_, ?_, ?_, ?_, ?_, ?_, ?_, ?_, ?_, ?_, ?_, ?_, by simp⟩
    all_goals
      rintro b ⟨a, rfl, -⟩
      rfl)

end Serialization

end Pebblecoin
