import Pebblecoin.ReplayFacts

/-!
The index of outputs of a ledger that was built from nothing, read off the
transactions that built it.
-/

namespace Pebblecoin

open Control

/-- The outputs with the given coin type and amount, numbered from `i` on. -/
def outputsAt (tx : TransactionPrefix) (txId : Hash) (i : Nat) (outs : List TxOut)
    (key : CoinType × UInt64) : List (Hash × Nat) :=
  ((outs.zipIdx i).filter fun p => (tx.outCp p.2, p.1.amount) = key).map fun p => (txId, p.2)

def TxRecord.outputsAt (r : TxRecord) (key : CoinType × UInt64) : List (Hash × Nat) :=
  Pebblecoin.outputsAt r.tx.toTransactionPrefix r.id 0 r.tx.vout key

theorem TxRecord.fst_of_mem_outputsAt {r : TxRecord} {key : CoinType × UInt64} {p : Hash × Nat}
    (h : p ∈ r.outputsAt key) : p.1 = r.id := by
  obtain ⟨q, -, rfl⟩ := List.mem_map.mp h
  rfl

theorem TxRecord.getElem_of_mem_outputsAt {r : TxRecord} {key : CoinType × UInt64} {p : Hash × Nat}
    (h : p ∈ r.outputsAt key) :
    p.1 = r.id ∧ ∃ out, r.tx.vout[p.2]? = some out ∧ (r.tx.outCp p.2, out.amount) = key := by
  obtain ⟨q, hq, rfl⟩ := List.mem_map.mp h
  obtain ⟨hmem, hkey⟩ := List.mem_filter.mp hq
  exact ⟨rfl, q.1, by simpa using List.mem_zipIdx_iff_getElem?.mp hmem, of_decide_eq_true hkey⟩

/-- The outputs with a coin type and amount of all the transactions, in order. -/
def outputsOf (rs : List TxRecord) (key : CoinType × UInt64) : List (Hash × Nat) :=
  rs.flatMap (·.outputsAt key)

namespace Ledger

theorem pushOutputs_fst (tx : TransactionPrefix) (txId : Hash) (i : Nat) (outs : List TxOut)
    (outputs : OutputIndex) (key : CoinType × UInt64) :
    (pushOutputs tx txId i outs outputs).1 key = outputs key ++ outputsAt tx txId i outs key := by
  induction outs generalizing i outputs with
  | nil => simp [pushOutputs, outputsAt]
  | cons out outs ih =>
    simp only [pushOutputs, outputsAt, List.zipIdx_cons]
    rw [ih, Function.update_apply]
    by_cases hkey : (tx.outCp i, out.amount) = key
    · simp [hkey, outputsAt]
    · simp [hkey, Ne.symm hkey, outputsAt]

theorem pushOutputs_snd_length (tx : TransactionPrefix) (txId : Hash) (i : Nat) (outs : List TxOut)
    (outputs : OutputIndex) : (pushOutputs tx txId i outs outputs).2.length = outs.length := by
  induction outs generalizing i outputs with
  | nil => rfl
  | cons out outs ih => simp [pushOutputs, ih]

theorem pushOutputs_snd {tx : TransactionPrefix} {txId : Hash} {i : Nat} {outs : List TxOut}
    {outputs : OutputIndex} {j g : Nat} {out : TxOut} (hout : outs[j]? = some out)
    (hg : (pushOutputs tx txId i outs outputs).2[j]? = some g) :
    ((pushOutputs tx txId i outs outputs).1 (tx.outCp (i + j), out.amount))[g]? =
      some (txId, i + j) := by
  induction outs generalizing i outputs j with
  | nil => simp at hout
  | cons first outs ih =>
    cases j with
    | zero =>
      obtain rfl : first = out := by simpa using hout
      obtain rfl : (outputs (tx.outCp i, first.amount)).length = g := by
        simpa [pushOutputs] using hg
      rw [pushOutputs, pushOutputs_fst]
      simp
    | succ j =>
      have hstep := ih (i := i + 1) (j := j) (by simpa using hout) (by simpa [pushOutputs] using hg)
      rw [show i + (j + 1) = i + 1 + j by omega]
      exact hstep

/-- The global indexes of a stored transaction are the positions of its outputs. -/
def Positioned (outputs : OutputIndex) (id : Hash) (e : TransactionChainEntry) : Prop :=
  e.globalOutputIndexes.length = e.tx.vout.length ∧
    ∀ j out g, e.tx.vout[j]? = some out → e.globalOutputIndexes[j]? = some g →
      (outputs (e.tx.outCp j, out.amount))[g]? = some (id, j)

/-- The index holds the outputs of the transactions and nothing else. -/
structure Indexed (rs : List TxRecord) (l : Ledger) : Prop where
  outputs : ∀ key, l.outputs key = outputsOf rs key
  positioned : ∀ id e, l.transactions id = some e → Positioned l.outputs id e

theorem Replay.indexed {crypto : Crypto} {J : Prop} {rs : List TxRecord} {l : Ledger}
    (h : Replay crypto J Ledger.empty rs l) : Indexed rs l := by
  refine induction (P := Indexed) ⟨fun _ => rfl, fun _ _ h => (nomatch h)⟩
    (fun {rs r l l₁} hindexed haddable hrun => ?_) (fun {rs l l'} hindexed hext => ?_) h
  · obtain ⟨tables, -, hnone, rfl⟩ := addTransactionFromBlock_eq_added hrun
    refine ⟨fun key => ?_, fun id e he => ?_⟩
    · dsimp only
      rw [pushOutputs_fst, hindexed.outputs key]
      simp [outputsOf, TxRecord.outputsAt]
    · simp only [Function.update_apply] at he
      split_ifs at he with hid
      · cases he
        subst hid
        refine ⟨pushOutputs_snd_length .., fun j out g hout hg => ?_⟩
        simpa using pushOutputs_snd hout hg
      · obtain ⟨hlength, hpos⟩ := hindexed.positioned id e he
        refine ⟨hlength, fun j out g hout hg => ?_⟩
        have hold := hpos j out g hout hg
        dsimp only
        rw [pushOutputs_fst, List.getElem?_append_left (List.getElem?_eq_some_iff.mp hold).1]
        exact hold
  · refine ⟨fun key => by rw [hext.outputs, hindexed.outputs key], fun id e he => ?_⟩
    rw [hext.outputs]
    rw [hext.transactions] at he
    exact hindexed.positioned id e he

end Ledger

end Pebblecoin
