import Pebblecoin.BuilderInputs
import Pebblecoin.Containers.Ranking

/-!
The outputs that an input of a wallet's transaction names: in the order in which they
are signed for, and in the order in which a validator reads them.
-/

namespace Pebblecoin

open Containers Control

theorem relativeOutputOffsetsToAbsolute_go (last : UInt64) (off : List UInt64) :
    relativeOutputOffsetsToAbsolute.go last (absoluteOutputOffsetsToRelative.go last off) = off := by
  induction off generalizing last with
  | nil => rfl
  | cons offset off ih =>
    have hoffset : last + (offset - last) = offset := by
      rw [UInt64.add_comm, UInt64.sub_add_cancel]
    rw [absoluteOutputOffsetsToRelative.go, relativeOutputOffsetsToAbsolute.go, hoffset, ih]

theorem relativeOutputOffsetsToAbsolute_of_increasing {off : List UInt64}
    (h : off.Pairwise (· < ·)) :
    relativeOutputOffsetsToAbsolute (absoluteOutputOffsetsToRelative off) = off := by
  have hsorted : off.insertionSort (· ≤ ·) = off :=
    List.Pairwise.insertionSort_eq (h.imp fun hlt => hlt.le)
  rw [absoluteOutputOffsetsToRelative, hsorted]
  exact relativeOutputOffsetsToAbsolute_go 0 off

namespace WalletTxBuilder

variable {w : Wallet2} {count idx : Nat} {fakes : FakeOuts} {src : TxSourceEntry}

/-- The outputs of a list other than the given one, in order. -/
def otherOuts (fakes : FakeOuts) (globalOutputIndex : UInt64) : FakeOuts :=
  (fakes.insertionSort fun a b => a.1 ≤ b.1).filter fun oe => decide (globalOutputIndex ≠ oe.1)

theorem mixedOuts_eq (fakes : FakeOuts) (globalOutputIndex : UInt64) (count : Nat) :
    mixedOuts fakes globalOutputIndex count =
      (otherOuts fakes globalOutputIndex).take (max count 1) := rfl

theorem ne_of_mem_otherOuts {g : UInt64} {oe : UInt64 × PublicKey} (h : oe ∈ otherOuts fakes g) :
    g ≠ oe.1 :=
  of_decide_eq_true (List.mem_filter.mp h).2

theorem otherOuts_increasing (g : UInt64) (h : (fakes.map Prod.fst).Nodup) :
    (otherOuts fakes g).Pairwise fun a b => a.1 < b.1 := by
  have hdescending := descending_insertionSort_reverse (f := Prod.fst)
    (r := fun a b : UInt64 × PublicKey => a.1 ≤ b.1) (fun _ _ => Iff.rfl) h
  exact (List.pairwise_reverse.mp hdescending).filter _

/-- The ring of a transfer: the real output stands among the others, behind the smaller
ones. -/
structure RingOf (w : Wallet2) (count idx : Nat) (fakes : FakeOuts) (td : TransferDetails)
    (key : PublicKey) (before after : FakeOuts) (src : TxSourceEntry) : Prop where
  transfer : w.transfers[idx]? = some td
  target : ∃ amount, td.tx.vout[td.internalOutputIndex]? = some ⟨amount, .toKey key⟩
  mixed : mixedOuts fakes td.globalOutputIndex count = before ++ after
  smaller : ∀ oe ∈ before, oe.1 < td.globalOutputIndex
  first : ∀ oe, after.head? = some oe → td.globalOutputIndex ≤ oe.1
  outputs : src.outputs = before ++ (td.globalOutputIndex, key) :: after
  realOutput : src.realOutput = before.length
  source : src.transfer = idx

theorem exists_ringOf (h : prepareInput w count idx fakes = .ok src) :
    ∃ td key before after, RingOf w count idx fakes td key before after src := by
  rw [prepareInput] at h
  split at h
  · cases h
  rename_i td htd
  split at h
  · rename_i amount key hkey
    rw [← Except.ok.inj h]
    generalize hmixed : mixedOuts fakes td.globalOutputIndex count = mixed
    have hdrop : mixed.drop (mixed.takeWhile fun oe => decide (oe.1 < td.globalOutputIndex)).length =
        mixed.dropWhile fun oe => decide (oe.1 < td.globalOutputIndex) := by
      nth_rewrite 2 [← List.takeWhile_append_dropWhile
        (p := fun oe => decide (oe.1 < td.globalOutputIndex)) (l := mixed)]
      exact List.drop_left
    refine ⟨td, key, _, _, htd, ⟨amount, hkey⟩, ?_, fun oe hoe => ?_, fun oe hoe => ?_, rfl, rfl, rfl⟩
    · rw [hmixed, hdrop, List.takeWhile_append_dropWhile]
    · simpa using List.all_eq_true.mp List.all_takeWhile oe hoe
    · rw [hdrop] at hoe
      have hnot := List.head?_dropWhile_not (fun oe => decide (oe.1 < td.globalOutputIndex)) mixed
      rw [hoe] at hnot
      simpa using hnot
  · cases h

namespace RingOf

variable {td : TransferDetails} {key : PublicKey} {before after : FakeOuts}

theorem mem_otherOuts {oe : UInt64 × PublicKey}
    (h : RingOf w count idx fakes td key before after src) (hoe : oe ∈ before ++ after) :
    oe ∈ otherOuts fakes td.globalOutputIndex := by
  rw [← h.mixed, mixedOuts_eq] at hoe
  exact List.mem_of_mem_take hoe

theorem outputs_get (h : RingOf w count idx fakes td key before after src) :
    src.outputs[src.realOutput]? = some (td.globalOutputIndex, key) := by
  rw [h.outputs, h.realOutput, List.getElem?_append_right le_rfl, Nat.sub_self]
  rfl

theorem increasing (h : RingOf w count idx fakes td key before after src)
    (hdistinct : (fakes.map Prod.fst).Nodup) :
    src.outputs.Pairwise fun a b => a.1 < b.1 := by
  have hmixed : (before ++ after).Pairwise fun a b => a.1 < b.1 := by
    rw [← h.mixed, mixedOuts_eq]
    exact (otherOuts_increasing td.globalOutputIndex hdistinct).sublist (List.take_sublist _ _)
  obtain ⟨hbefore, hafter, hacross⟩ := List.pairwise_append.mp hmixed
  have hgreater : ∀ oe ∈ after, td.globalOutputIndex < oe.1 := by
    intro oe hoe
    have hne := ne_of_mem_otherOuts (h.mem_otherOuts (List.mem_append_right before hoe))
    refine lt_of_le_of_ne ?_ hne
    cases hlist : after with
    | nil => simp [hlist] at hoe
    | cons head tail =>
      have hhead := h.first head (by rw [hlist]; rfl)
      rw [hlist] at hoe hafter
      rcases List.mem_cons.mp hoe with rfl | hoe
      · exact hhead
      · exact hhead.trans ((List.pairwise_cons.mp hafter).1 oe hoe).le
  rw [h.outputs, List.pairwise_append, List.pairwise_cons]
  refine ⟨hbefore, ⟨hgreater, hafter⟩, fun a ha b hb => ?_⟩
  rcases List.mem_cons.mp hb with rfl | hb
  · exact h.smaller a ha
  · exact hacross a ha b hb

theorem count_eq_one (h : RingOf w count idx fakes td key before after src) :
    (src.outputs.map Prod.fst).count td.globalOutputIndex = 1 := by
  have hother : ∀ oe ∈ before ++ after, oe.1 ≠ td.globalOutputIndex := fun oe hoe =>
    (ne_of_mem_otherOuts (h.mem_otherOuts hoe)).symm
  have hbefore : (before.map Prod.fst).count td.globalOutputIndex = 0 := by
    refine List.count_eq_zero.mpr fun hmem => ?_
    obtain ⟨oe, hoe, heq⟩ := List.mem_map.mp hmem
    exact hother oe (List.mem_append_left after hoe) heq
  have hafter : (after.map Prod.fst).count td.globalOutputIndex = 0 := by
    refine List.count_eq_zero.mpr fun hmem => ?_
    obtain ⟨oe, hoe, heq⟩ := List.mem_map.mp hmem
    exact hother oe (List.mem_append_right before hoe) heq
  rw [h.outputs, List.map_append, List.map_cons, List.count_append, List.count_cons_self, hbefore,
    hafter]

end RingOf

/-- The inputs for transfers of any coins.  The lists of all coins are counted through
with one number. -/
def prepareInputsFrom (w : Wallet2) (fakeOutputs : CoinType → List FakeOuts)
    (fakeOutputsCount : Nat) : Nat → List Nat → Except BuilderError (List TxSourceEntry)
  | _, [] => .ok []
  | i, idx :: idxs =>
    match w.transfers[idx]? with
    | none => .error .invalidTransferIndex
    | some td => do
      let theseFakes := fakeOutputs (td.tx.outCp td.internalOutputIndex)
      let src ← prepareInput w fakeOutputsCount idx ((theseFakes[i]?).getD [])
      (src :: ·) <$> prepareInputsFrom w fakeOutputs fakeOutputsCount (i + 1) idxs

/-- With one list for all coins these are the inputs for transfers of one coin. -/
theorem prepareInputs_eq_prepareInputsFrom (w : Wallet2) (fakeOutputs : List FakeOuts)
    (count i : Nat) (idxs : List Nat) :
    prepareInputs w count idxs (fakeOutputs.drop i) =
      prepareInputsFrom w (fun _ => fakeOutputs) count i idxs := by
  induction idxs generalizing i with
  | nil => rfl
  | cons idx idxs ih =>
    rw [prepareInputs, prepareInputsFrom, List.tail_drop, ih, List.headD_eq_head?_getD,
      List.head?_drop]
    cases htd : w.transfers[idx]? with
    | none => simp [prepareInput, htd, bind, Except.bind]
    | some td => rfl

/-- The outputs of a source: increasing, with the real one once and where it is said to be. -/
structure Ordered (w : Wallet2) (idx : Nat) (src : TxSourceEntry) : Prop where
  increasing : (src.outputs.map Prod.fst).Pairwise (· < ·)
  real : ∃ td key amount, w.transfers[idx]? = some td ∧
    td.tx.vout[td.internalOutputIndex]? = some ⟨amount, .toKey key⟩ ∧
    src.outputs[src.realOutput]? = some (td.globalOutputIndex, key) ∧
    (src.outputs.map Prod.fst).count td.globalOutputIndex = 1

theorem ordered_of_prepareInput (h : prepareInput w count idx fakes = .ok src)
    (hdistinct : (fakes.map Prod.fst).Nodup) : Ordered w idx src := by
  obtain ⟨td, key, before, after, hring⟩ := exists_ringOf h
  obtain ⟨amount, htarget⟩ := hring.target
  refine ⟨?_, td, key, amount, hring.transfer, htarget, hring.outputs_get, hring.count_eq_one⟩
  rw [List.pairwise_map]
  exact hring.increasing hdistinct

theorem ordered_of_prepareInputsFrom {fakeOutputs : CoinType → List FakeOuts} {i : Nat}
    {idxs : List Nat} {sources : List TxSourceEntry}
    (h : prepareInputsFrom w fakeOutputs count i idxs = .ok sources)
    (hdistinct : ∀ cp, ∀ fakes ∈ fakeOutputs cp, (fakes.map Prod.fst).Nodup) :
    List.Forall₂ (Ordered w) idxs sources := by
  induction idxs generalizing i sources with
  | nil =>
    rw [← Except.ok.inj h]
    exact List.Forall₂.nil
  | cons idx idxs ih =>
    rw [prepareInputsFrom] at h
    split at h
    · cases h
    rename_i td htd
    obtain ⟨src, hsrc, h⟩ := bind_eq_ok_iff.mp h
    obtain ⟨rest, hrest, rfl⟩ := map_eq_ok_iff.mp h
    refine List.Forall₂.cons (ordered_of_prepareInput hsrc ?_) (ih hrest)
    cases hfakes : (fakeOutputs (td.tx.outCp td.internalOutputIndex))[i]? with
    | none => exact List.nodup_nil
    | some fakes => exact hdistinct _ fakes (List.mem_of_getElem? hfakes)

end WalletTxBuilder

namespace TxBuilder

variable {keys : AccountKeys} {vote : Option (UInt16 × DelegateVotes)} {sources : List TxSourceEntry}

theorem updateVersionTo_vinCoinTypes (v : UInt64) (tx : Transaction) :
    (updateVersionTo v tx).vinCoinTypes = tx.vinCoinTypes := by
  rw [updateVersionTo]
  split <;> rfl

theorem addSource_vin {amounts r : CurrencyMap × TxBuilder} {src : TxSourceEntry}
    (h : addSource keys vote amounts src = some r) :
    r.2.tx.vin = amounts.2.tx.vin ++ [inputOf keys vote src] ∧
      r.2.tx.vinCoinTypes = amounts.2.tx.vinCoinTypes ++ [src.cp] := by
  simp only [addSource, Option.bind_eq_bind, Option.bind_eq_some_iff] at h
  obtain ⟨real, -, inputAmounts, -, inEphemeral, -, h⟩ := h
  split_ifs at h
  rw [← Option.some.inj h]
  simp [useSource, addIn, updateVersionTo_vin, updateVersionTo_vinCoinTypes]

theorem foldlM_addSource_vin {amounts r : CurrencyMap × TxBuilder}
    (h : sources.foldlM (addSource keys vote) amounts = some r) :
    r.2.tx.vin = amounts.2.tx.vin ++ sources.map (inputOf keys vote) ∧
      r.2.tx.vinCoinTypes = amounts.2.tx.vinCoinTypes ++ sources.map (·.cp) := by
  induction sources generalizing amounts with
  | nil =>
    rw [← Option.some.inj h]
    simp
  | cons src sources ih =>
    rw [List.foldlM_cons, Option.bind_eq_bind, Option.bind_eq_some_iff] at h
    obtain ⟨next, hnext, h⟩ := h
    obtain ⟨hvin, htypes⟩ := addSource_vin hnext
    obtain ⟨hrest, hrestTypes⟩ := ih h
    rw [hrest, hrestTypes, hvin, htypes]
    simp

end TxBuilder

theorem TxBuilder.ink_inputOf (keys : AccountKeys) (vote : Option (UInt16 × DelegateVotes))
    (src : TxSourceEntry) : (inputOf keys vote src).ink = some (inputToKey keys src) := by
  cases vote <;> rfl

/-- The validator has these keys at these indices, and they may be spent. -/
def Storage.Offers (s : Storage) (env : Env) (now : UInt64) (src : TxSourceEntry) : Prop :=
  ∀ oe ∈ src.outputs, ∃ out, (s.ledger.outputs (src.cp, src.amountIn))[oe.1.toNat]? = some out ∧
    s.handleOutput env now src.cp out = some oe.2

/-- A validator reads the outputs of the source, in their order. -/
structure ReadBack (src : TxSourceEntry) (ink : TxinToKey) : Prop where
  indexes : relativeOutputOffsetsToAbsolute ink.keyOffsets = src.outputs.map Prod.fst
  keys : ∀ (s : Storage) env now, s.Offers env now src →
    s.scanOutputkeysForIndexes env now src.cp ink = some (src.outputs.map Prod.snd)

theorem readBack_inputToKey (keys : AccountKeys) {src : TxSourceEntry}
    (h : (src.outputs.map Prod.fst).Pairwise (· < ·)) :
    ReadBack src (TxBuilder.inputToKey keys src) := by
  have hindexes := relativeOutputOffsetsToAbsolute_of_increasing h
  refine ⟨hindexes, fun s env now hoffers => ?_⟩
  change ((relativeOutputOffsetsToAbsolute (absoluteOutputOffsetsToRelative
    (src.outputs.map Prod.fst))).mapM _) = _
  rw [hindexes]
  refine mapM_map_fst fun oe hoe => ?_
  obtain ⟨out, hout, hkey⟩ := hoffers oe hoe
  change ((s.ledger.outputs (src.cp, src.amountIn))[oe.1.toNat]?.bind _) = _
  rw [hout]
  exact hkey

theorem exists_of_mem_right {α β : Type} {R : α → β → Prop} {l : List α} {l' : List β}
    (h : List.Forall₂ R l l') {b : β} (hb : b ∈ l') : ∃ a ∈ l, R a b := by
  induction h with
  | nil => cases hb
  | cons hab _ ih =>
    rcases List.mem_cons.mp hb with rfl | hb
    · exact ⟨_, List.mem_cons_self, hab⟩
    · obtain ⟨a, ha, hab⟩ := ih hb
      exact ⟨a, List.mem_cons_of_mem _ ha, hab⟩

/-- The sources for any transfers and lists are in order, and the inputs made of them are
read back as they were signed for. -/
theorem prepared_sources_read_back (w : Wallet2) (keys : AccountKeys)
    (fakeOutputs : CoinType → List FakeOuts) (fakeOutputsCount : Nat) (transferIs : List Nat)
    (sources : List TxSourceEntry)
    (hdistinct : ∀ cp, ∀ fakes ∈ fakeOutputs cp, (fakes.map Prod.fst).Nodup)
    (h : WalletTxBuilder.prepareInputsFrom w fakeOutputs fakeOutputsCount 0 transferIs = .ok sources) :
    List.Forall₂ (WalletTxBuilder.Ordered w) transferIs sources ∧
      ∀ vote b r, TxBuilder.addSources keys vote sources b = some r →
        ∃ ins, r.2.tx.vin = b.tx.vin ++ ins ∧
          r.2.tx.vinCoinTypes = b.tx.vinCoinTypes ++ sources.map (·.cp) ∧
          List.Forall₂ (fun src inp => ∃ ink, inp.ink = some ink ∧ ReadBack src ink) sources ins := by
  have hordered := WalletTxBuilder.ordered_of_prepareInputsFrom h hdistinct
  refine ⟨hordered, fun vote b r hadd => ?_⟩
  obtain ⟨hvin, htypes⟩ := TxBuilder.foldlM_addSource_vin hadd
  refine ⟨_, hvin, htypes, ?_⟩
  rw [List.forall₂_map_right_iff, List.forall₂_same]
  intro src hsrc
  obtain ⟨idx, -, hsrc⟩ := exists_of_mem_right hordered hsrc
  exact ⟨_, TxBuilder.ink_inputOf keys vote src, readBack_inputToKey keys hsrc.increasing⟩

def sampleMixer : Wallet2 :=
  { WalletTxBuilder.sampleVoter 0 with
    transfers := [{ WalletTxBuilder.sampleTransfer 0 with globalOutputIndex := 5 }] }

def sampleOuts (indexes : List UInt64) : FakeOuts := indexes.map fun i => (i, Blob.ofNat 32 i.toNat)

/-- A transfer with output five, mixed with the outputs seven and three. -/
theorem prepared_sources_read_back_between :
    ∃ sources, WalletTxBuilder.prepareInputsFrom sampleMixer (fun _ => [sampleOuts [7, 5, 3]]) 2 0
        [0] = .ok sources ∧
      (sources.map fun src => (src.outputs.map Prod.fst, src.realOutput)) = [([3, 5, 7], 1)] ∧
      ∃ r, TxBuilder.addSources Wallet2.sampleKeys none sources
          (TxBuilder.init WalletTxBuilder.sampleTxKey 0 []) = some r ∧
        ∃ ins, r.2.tx.vin = ins ∧
          List.Forall₂ (fun src inp => ∃ ink, inp.ink = some ink ∧ ReadBack src ink) sources ins := by
  have hdistinct : ∀ cp : CoinType, ∀ fakes ∈ [sampleOuts [7, 5, 3]], (fakes.map Prod.fst).Nodup := by
    intro cp fakes hfakes
    rw [List.mem_singleton.mp hfakes]
    decide
  obtain ⟨-, hread⟩ := prepared_sources_read_back sampleMixer Wallet2.sampleKeys
    (fun _ => [sampleOuts [7, 5, 3]]) 2 [0] _ hdistinct rfl
  refine ⟨_, rfl, rfl, _, rfl, ?_⟩
  obtain ⟨ins, hvin, -, hins⟩ := hread none (TxBuilder.init WalletTxBuilder.sampleTxKey 0 []) _ rfl
  exact ⟨ins, hvin, hins⟩

end Pebblecoin
