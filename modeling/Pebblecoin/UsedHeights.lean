import Pebblecoin.MainChainTxs

/-!
The height that the check of a transaction's inputs reports, and the blocks of the outputs
that the inputs name.
-/

namespace Pebblecoin

variable {offsets : List UInt64} {index : UInt64} {i height : Nat} {inp : TxIn}

/-- The offsets add up to more than a word holds. -/
def Wraps (offsets : List UInt64) : Prop := 2 ^ 64 ≤ (offsets.map UInt64.toNat).sum

theorem relativeOutputOffsetsToAbsolute_go_le {last : UInt64}
    (h : last.toNat + (offsets.map UInt64.toNat).sum < 2 ^ 64) :
    (∀ index ∈ relativeOutputOffsetsToAbsolute.go last offsets, last ≤ index) ∧
      (relativeOutputOffsetsToAbsolute.go last offsets).Pairwise (· ≤ ·) := by
  induction offsets generalizing last with
  | nil => exact ⟨by simp [relativeOutputOffsetsToAbsolute.go], List.Pairwise.nil⟩
  | cons offset offsets ih =>
    rw [List.map_cons, List.sum_cons] at h
    have hsum : (last + offset).toNat = last.toNat + offset.toNat := by
      rw [UInt64.toNat_add]
      omega
    have hle : last ≤ last + offset := by
      rw [UInt64.le_iff_toNat_le]
      omega
    have hnext : (last + offset).toNat + (offsets.map UInt64.toNat).sum < 2 ^ 64 := by omega
    obtain ⟨hall, hrest⟩ := ih hnext
    rw [relativeOutputOffsetsToAbsolute.go]
    refine ⟨fun index hindex => ?_, List.pairwise_cons.mpr ⟨hall, hrest⟩⟩
    rcases List.mem_cons.mp hindex with rfl | hindex
    · exact hle
    · exact UInt64.le_trans hle (hall index hindex)

theorem le_getLast_of_not_wraps (h : ¬ Wraps offsets) {last : UInt64}
    (hindex : index ∈ relativeOutputOffsetsToAbsolute offsets)
    (hlast : (relativeOutputOffsetsToAbsolute offsets).getLast? = some last) : index ≤ last := by
  have hsum : (0 : UInt64).toNat + (offsets.map UInt64.toNat).sum < 2 ^ 64 := by
    rw [Wraps, Nat.not_le] at h
    rwa [UInt64.toNat_zero, Nat.zero_add]
  have hpairwise := (relativeOutputOffsetsToAbsolute_go_le hsum).2
  change (relativeOutputOffsetsToAbsolute offsets).Pairwise (· ≤ ·) at hpairwise
  obtain ⟨front, hfront⟩ := List.getLast?_eq_some_iff.mp hlast
  rw [hfront] at hindex hpairwise
  rcases List.mem_append.mp hindex with hindex | hindex
  · exact (List.pairwise_append.mp hpairwise).2.2 index hindex last List.mem_cons_self
  · rw [List.mem_singleton.mp hindex]

namespace Storage

variable {env : Env} {now : UInt64} {s : Storage} {tx : Transaction}

/-- The height in the table for the output at an index. -/
def heightAt (s : Storage) (key : CoinType × UInt64) (index : UInt64) : Option Nat := do
  let out ← (s.ledger.outputs key)[index.toNat]?
  let entry ← s.ledger.transactions out.1
  some entry.keeperBlockHeight

/-- The height of the last output that an input names. -/
def LastHeight (s : Storage) (tx : Transaction) (i : Nat) (inp : TxIn) (height : Nat) : Prop :=
  ∃ ink index, inp.ink = some ink ∧
    (relativeOutputOffsetsToAbsolute ink.keyOffsets).getLast? = some index ∧
    s.heightAt (tx.inCp i, ink.amount) index = some height

theorem exists_heightAt {type : CoinType} {ink : TxinToKey} {keys : List PublicKey}
    (h : s.scanOutputkeysForIndexes env now type ink = some keys) :
    ∀ index ∈ relativeOutputOffsetsToAbsolute ink.keyOffsets,
      ∃ height, s.heightAt (type, ink.amount) index = some height := by
  rw [scanOutputkeysForIndexes] at h
  generalize relativeOutputOffsetsToAbsolute ink.keyOffsets = indexes at h ⊢
  induction indexes generalizing keys with
  | nil => simp
  | cons index indexes ih =>
    rw [List.mapM_cons] at h
    obtain ⟨key, hkey, h⟩ := Option.bind_eq_some_iff.mp h
    obtain ⟨rest, hrest, -⟩ := Option.bind_eq_some_iff.mp h
    obtain ⟨out, hout, hkey⟩ := Option.bind_eq_some_iff.mp hkey
    obtain ⟨entry, hentry, -⟩ := Option.bind_eq_some_iff.mp hkey
    intro index' hindex'
    rcases List.mem_cons.mp hindex' with rfl | hindex'
    · refine ⟨entry.keeperBlockHeight, ?_⟩
      simp [heightAt, hout, hentry]
    · exact ih hrest index' hindex'

theorem exists_getLast (h : offsets.isEmpty = false) :
    ∃ index, (relativeOutputOffsetsToAbsolute offsets).getLast? = some index := by
  cases offsets with
  | nil => cases h
  | cons offset offsets =>
    refine ⟨_, List.getLast?_eq_some_getLast ?_⟩
    rw [relativeOutputOffsetsToAbsolute, relativeOutputOffsetsToAbsolute.go]
    exact List.cons_ne_nil _ _

theorem maxHeightOfToKey_eq {ink : TxinToKey} (h : s.checkTxInToKey env now tx i ink = true)
    (height : Nat) :
    ∃ index last, (relativeOutputOffsetsToAbsolute ink.keyOffsets).getLast? = some index ∧
      s.heightAt (tx.inCp i, ink.amount) index = some last ∧
      s.maxHeightOfToKey env now tx i ink height = max height last := by
  rw [checkTxInToKey, Bool.and_eq_true, Bool.and_eq_true, Bool.and_eq_true] at h
  obtain ⟨⟨⟨hoffsets, hsigned⟩, hunspent⟩, hring⟩ := h
  have hoffsets : ink.keyOffsets.isEmpty = false := by simpa using hoffsets
  have hunspent : s.ledger.spentKeys ink.kImage = false := by simpa using hunspent
  have hsigned : ¬ tx.signatures.length ≤ i := by simpa using hsigned
  cases hscan : s.scanOutputkeysForIndexes env now (tx.inCp i) ink with
  | none => simp [hscan] at hring
  | some keys =>
    obtain ⟨index, hindex⟩ := exists_getLast hoffsets
    obtain ⟨last, hlast⟩ := exists_heightAt hscan index (List.mem_of_getLast? hindex)
    refine ⟨index, last, hindex, hlast, ?_⟩
    rw [heightAt] at hlast
    obtain ⟨out, hout, hlast⟩ := Option.bind_eq_some_iff.mp hlast
    obtain ⟨entry, hentry, hheight⟩ := Option.bind_eq_some_iff.mp hlast
    rw [maxHeightOfToKey, hoffsets, hunspent, decide_eq_false hsigned, maxHeightOfOutputkeys, hscan,
      hindex, ← Option.some.inj hheight]
    simp [hout, hentry]

theorem maxHeightOfInput_cases (h : s.checkTxInput env now tx i inp = .ok true) (height : Nat) :
    (inp.ink = none ∧ s.maxHeightOfInput env now tx i height inp = height) ∨
      ∃ last, s.LastHeight tx i inp last ∧
        s.maxHeightOfInput env now tx i height inp = max height last := by
  cases inp with
  | toKey ink =>
    obtain ⟨index, last, hindex, hlast, hmax⟩ := maxHeightOfToKey_eq (Except.ok.inj h) height
    exact Or.inr ⟨last, ⟨ink, index, rfl, hindex, hlast⟩, hmax⟩
  | vote inp =>
    have hvote := Except.ok.inj h
    rw [checkTxInVote, Bool.and_eq_true] at hvote
    obtain ⟨index, last, hindex, hlast, hmax⟩ := maxHeightOfToKey_eq hvote.2 height
    refine Or.inr ⟨last, ⟨inp.ink, index, rfl, hindex, hlast⟩, ?_⟩
    rw [maxHeightOfInput, maxHeightOfVote, if_pos hvote.1, hmax]
  | _ => exact Or.inl ⟨rfl, rfl⟩

theorem LastHeight.unique {height' : Nat} (h : s.LastHeight tx i inp height)
    (h' : s.LastHeight tx i inp height') : height = height' := by
  obtain ⟨ink, index, hink, hindex, hheight⟩ := h
  obtain ⟨ink', index', hink', hindex', hheight'⟩ := h'
  rw [hink] at hink'
  obtain rfl := Option.some.inj hink'
  rw [hindex] at hindex'
  obtain rfl := Option.some.inj hindex'
  exact Option.some.inj (hheight.symm.trans hheight')

theorem maxHeightOfInputsFrom_spec {ins : List TxIn}
    (h : s.checkTxInputsFrom env now tx i ins = .ok true) (height : Nat) :
    height ≤ s.maxHeightOfInputsFrom env now tx i ins height ∧
      (∀ k inp, ins[k]? = some inp → ∀ last, s.LastHeight tx (i + k) inp last →
        last ≤ s.maxHeightOfInputsFrom env now tx i ins height) ∧
      (s.maxHeightOfInputsFrom env now tx i ins height = height ∨
        ∃ k inp, ins[k]? = some inp ∧
          s.LastHeight tx (i + k) inp (s.maxHeightOfInputsFrom env now tx i ins height)) := by
  induction ins generalizing i height with
  | nil => exact ⟨le_rfl, by simp, Or.inl rfl⟩
  | cons inp ins ih =>
    rw [checkTxInputsFrom] at h
    obtain ⟨passed, hpassed, h⟩ := Control.bind_eq_ok_iff.mp h
    cases passed with
    | false => cases h
    | true =>
      rw [if_pos rfl] at h
      obtain ⟨hle, hall, hsome⟩ := ih h (s.maxHeightOfInput env now tx i height inp)
      rw [maxHeightOfInputsFrom, hpassed]
      dsimp only
      generalize s.maxHeightOfInputsFrom env now tx (i + 1) ins
        (s.maxHeightOfInput env now tx i height inp) = reported at hle hall hsome ⊢
      have hindex : ∀ k, i + 1 + k = i + (k + 1) := by omega
      simp only [hindex] at hall hsome
      have hlater : reported = height ∨ (∃ k inp, ins[k]? = some inp ∧
          s.LastHeight tx (i + (k + 1)) inp reported) ∨ s.LastHeight tx i inp reported := by
        rcases hsome with hsome | hsome
        · rcases maxHeightOfInput_cases hpassed height with ⟨-, hmax⟩ | ⟨last, hlast, hmax⟩
          · exact Or.inl (hsome.trans hmax)
          · rcases max_choice height last with hchoice | hchoice
            · exact Or.inl (hsome.trans (hmax.trans hchoice))
            · exact Or.inr (Or.inr (by rwa [hsome, hmax, hchoice]))
        · exact Or.inr (Or.inl hsome)
      refine ⟨?_, fun k inp' hinp' last hlast => ?_, ?_⟩
      · rcases maxHeightOfInput_cases hpassed height with ⟨-, hmax⟩ | ⟨last, -, hmax⟩
        · rwa [hmax] at hle
        · exact (le_max_left height last).trans (hmax ▸ hle)
      · cases k with
        | zero =>
          obtain rfl : inp = inp' := by simpa using hinp'
          rcases maxHeightOfInput_cases hpassed height with ⟨hnone, -⟩ | ⟨last', hlast', hmax⟩
          · obtain ⟨ink, -, hink, -⟩ := hlast
            rw [hnone] at hink
            cases hink
          · rw [hlast.unique hlast']
            exact (le_max_right height last').trans (hmax ▸ hle)
        | succ k => exact hall k inp' (by simpa using hinp') last hlast
      · rcases hlater with hsame | ⟨k, inp', hinp', hlast⟩ | hlast
        · exact Or.inl hsame
        · exact Or.inr ⟨k + 1, inp', by simpa using hinp', hlast⟩
        · exact Or.inr ⟨0, inp, rfl, hlast⟩

/-- The output at an index is in the block of this height. -/
def OutputInBlock (env : Env) (s : Storage) (key : CoinType × UInt64) (index : UInt64)
    (height : Nat) : Prop :=
  ∃ out, (s.ledger.outputs key)[index.toNat]? = some out ∧
    ∃ r ∈ s.mainChainTxs env, r.id = out.1 ∧ r.height = height

/-- Input `i` names an output of the block of this height. -/
def Refers (env : Env) (s : Storage) (tx : Transaction) (i height : Nat) : Prop :=
  ∃ inp ink, tx.vin[i]? = some inp ∧ inp.ink = some ink ∧
    ∃ index ∈ relativeOutputOffsetsToAbsolute ink.keyOffsets,
      OutputInBlock env s (tx.inCp i, ink.amount) index height

/-- The last output that input `i` names is in the block of this height. -/
def RefersLast (env : Env) (s : Storage) (tx : Transaction) (i height : Nat) : Prop :=
  ∃ inp ink, tx.vin[i]? = some inp ∧ inp.ink = some ink ∧
    ∃ index, (relativeOutputOffsetsToAbsolute ink.keyOffsets).getLast? = some index ∧
      OutputInBlock env s (tx.inCp i, ink.amount) index height

theorem RefersLast.refers (h : RefersLast env s tx i height) : Refers env s tx i height := by
  obtain ⟨inp, ink, hinp, hink, index, hindex, hblock⟩ := h
  exact ⟨inp, ink, hinp, hink, index, List.mem_of_getLast? hindex, hblock⟩

theorem Recorded.heightAt_iff {recs : List (List TxRecord)} (h : Recorded env recs s)
    {key : CoinType × UInt64} :
    s.heightAt key index = some height ↔ OutputInBlock env s key index height := by
  rw [heightAt, OutputInBlock, h.mainChainTxs_eq]
  constructor
  · intro hheight
    obtain ⟨out, hout, hheight⟩ := Option.bind_eq_some_iff.mp hheight
    obtain ⟨entry, hentry, hheight⟩ := Option.bind_eq_some_iff.mp hheight
    obtain ⟨r, hr, hid, -, hkeeper⟩ := h.listed.found out.1 entry hentry
    exact ⟨out, hout, r, hr, hid, hkeeper.trans (Option.some.inj hheight)⟩
  · rintro ⟨out, hout, r, hr, hid, rfl⟩
    obtain ⟨entry, hentry, -, hkeeper⟩ := h.listed.present r hr
    rw [hid] at hentry
    simp [hout, hentry, hkeeper]

theorem Recorded.heightAt_mono {recs : List (List TxRecord)} (h : Recorded env recs s)
    {key : CoinType × UInt64} {index' : UInt64} {height' : Nat} (hle : index ≤ index')
    (hheight : s.heightAt key index = some height)
    (hheight' : s.heightAt key index' = some height') : height ≤ height' := by
  rcases Nat.lt_or_eq_of_le (UInt64.le_iff_toNat_le.mp hle) with hlt | heq
  · obtain ⟨out, hout, hrest⟩ := Option.bind_eq_some_iff.mp hheight
    obtain ⟨entry, hentry, hkept⟩ := Option.bind_eq_some_iff.mp hrest
    obtain ⟨out', hout', hrest'⟩ := Option.bind_eq_some_iff.mp hheight'
    obtain ⟨entry', hentry', hkept'⟩ := Option.bind_eq_some_iff.mp hrest'
    have hpairwise := h.outputs_heightLe key
    rw [← h.ledger.indexed.outputs key] at hpairwise
    obtain ⟨hi, rfl⟩ := List.getElem?_eq_some_iff.mp hout
    obtain ⟨hi', rfl⟩ := List.getElem?_eq_some_iff.mp hout'
    obtain ⟨e, e', he, he', hkeeper⟩ := List.pairwise_iff_getElem.mp hpairwise _ _ hi hi' hlt
    rw [hentry] at he
    rw [hentry'] at he'
    rw [← Option.some.inj hkept, ← Option.some.inj hkept', Option.some.inj he,
      Option.some.inj he']
    exact hkeeper
  · rw [UInt64.toNat_inj.mp heq, hheight'] at hheight
    exact (Option.some.inj hheight).ge

/-- The height is the greatest of those of the outputs that are named; zero if none is. -/
structure IsMaxUsed (env : Env) (s : Storage) (tx : Transaction) (reported : Nat) : Prop where
  upper : ∀ i height, Refers env s tx i height → height ≤ reported
  attained : (∃ i, Refers env s tx i reported) ∨ reported = 0 ∧ ∀ i height, ¬ Refers env s tx i height

/-- The outputs of an input whose offsets wrap are in no higher blocks than the last output
of some input. -/
def WrapsCovered (env : Env) (s : Storage) (tx : Transaction) : Prop :=
  ∀ i inp ink, tx.vin[i]? = some inp → inp.ink = some ink → Wraps ink.keyOffsets →
    ∀ height, Refers env s tx i height → ∃ j height', RefersLast env s tx j height' ∧ height ≤ height'

/-- The check reports the greatest height exactly if nothing that it overlooks, because of
offsets that wrap, lies higher. -/
theorem maxUsed_iff {genesis : Block} {ops : List (UInt64 × Op)} (h : s.ReachedBy env genesis ops)
    (hids : IdsUnique env.crypto genesis ops) (hoverflow : .applyVoteOverflow ∉ s.log)
    (now : UInt64) (tx : Transaction) (hcheck : s.checkTxInputs env now tx = .ok true) :
    IsMaxUsed env s tx (s.maxHeightOfInputsFrom env now tx 0 tx.vin 0) ↔ WrapsCovered env s tx := by
  obtain ⟨recs, hrec⟩ := h.recorded hids hoverflow
  obtain ⟨-, hcheck⟩ := checkTxInputs_eq_true hcheck
  obtain ⟨-, hall, hsome⟩ := maxHeightOfInputsFrom_spec hcheck 0
  generalize s.maxHeightOfInputsFrom env now tx 0 tx.vin 0 = reported at hall hsome ⊢
  simp only [Nat.zero_add] at hall hsome
  have hupper : ∀ j height, RefersLast env s tx j height → height ≤ reported := by
    rintro j height ⟨inp, ink, hinp, hink, index, hindex, hblock⟩
    exact hall j inp hinp height ⟨ink, index, hink, hindex, hrec.heightAt_iff.mpr hblock⟩
  have hattained : reported = 0 ∨ ∃ j, RefersLast env s tx j reported := by
    refine hsome.imp_right fun ⟨k, inp, hinp, ink, index, hink, hindex, hheight⟩ => ?_
    exact ⟨k, inp, ink, hinp, hink, index, hindex, hrec.heightAt_iff.mp hheight⟩
  have hlast : ∀ i height, Refers env s tx i height → ∃ height', RefersLast env s tx i height' := by
    rintro i height ⟨inp, ink, hinp, hink, -⟩
    have hpassed := checkTxInputsFrom_getElem? hcheck i inp hinp
    rw [Nat.zero_add] at hpassed
    rcases maxHeightOfInput_cases hpassed 0 with ⟨hnone, -⟩ | ⟨last, hlast, -⟩
    · rw [hink] at hnone
      cases hnone
    · obtain ⟨ink', index, hink', hindex, hheight⟩ := hlast
      exact ⟨last, inp, ink', hinp, hink', index, hindex, hrec.heightAt_iff.mp hheight⟩
  constructor
  · rintro hmax i inp ink hinp hink - height hrefers
    rcases hattained with hzero | ⟨j, hj⟩
    · obtain ⟨height', hlast'⟩ := hlast i height hrefers
      have hle := hmax.upper i height hrefers
      exact ⟨i, height', hlast', by omega⟩
    · exact ⟨j, reported, hj, hmax.upper i height hrefers⟩
  · intro hcovered
    have hrefers : ∀ i height, Refers env s tx i height → height ≤ reported := by
      intro i height hrefers
      obtain ⟨inp, ink, hinp, hink, index, hindex, hblock⟩ := hrefers
      by_cases hwraps : Wraps ink.keyOffsets
      · obtain ⟨j, height', hj, hle⟩ := hcovered i inp ink hinp hink hwraps height
          ⟨inp, ink, hinp, hink, index, hindex, hblock⟩
        exact hle.trans (hupper j height' hj)
      · obtain ⟨height', hlast'⟩ := hlast i height ⟨inp, ink, hinp, hink, index, hindex, hblock⟩
        refine le_trans ?_ (hupper i height' hlast')
        obtain ⟨inp', ink', hinp', hink', last, hlast, hblock'⟩ := hlast'
        rw [hinp] at hinp'
        obtain rfl := Option.some.inj hinp'
        rw [hink] at hink'
        obtain rfl := Option.some.inj hink'
        exact hrec.heightAt_mono (le_getLast_of_not_wraps hwraps hindex hlast)
          (hrec.heightAt_iff.mpr hblock) (hrec.heightAt_iff.mpr hblock')
    refine ⟨hrefers, ?_⟩
    rcases hattained with rfl | ⟨j, hj⟩
    · by_cases hany : ∃ i height, Refers env s tx i height
      · obtain ⟨i, height, href⟩ := hany
        obtain rfl : height = 0 := Nat.le_zero.mp (hrefers i height href)
        exact Or.inl ⟨i, href⟩
      · exact Or.inr ⟨rfl, fun i height href => hany ⟨i, height, href⟩⟩
    · exact Or.inl ⟨j, hj.refers⟩

/-- One input whose ring has these offsets. -/
def sampleRingTx (offsets : List UInt64) : Transaction :=
  { sampleTx [.toKey ⟨sampleReward, offsets, Blob.ofNat 32 200⟩] [1000] with
    signatures := [offsets.map fun _ => Blob.null 64] }

def sampleReported (offsets : List UInt64) : Nat :=
  sampleSpending.maxHeightOfInputsFrom samplePowEnv 1000 (sampleRingTx offsets) 0
    (sampleRingTx offsets).vin 0

theorem maxUsed_of_sampleRingTx :
    sampleReported [0, 2] = 3 ∧
      IsMaxUsed samplePowEnv sampleSpending (sampleRingTx [0, 2]) (sampleReported [0, 2]) := by
  refine ⟨by decide +kernel, ?_⟩
  refine (maxUsed_iff sampleSpending_reachedBy sampleSpending_idsUnique sampleSpending_quiet 1000
    (sampleRingTx [0, 2]) (by decide +kernel)).mpr fun i inp ink hinp hink hwraps => ?_
  cases i with
  | zero =>
    obtain rfl := Option.some.inj hinp
    obtain rfl := Option.some.inj hink
    exact absurd hwraps (by rw [Wraps]; decide)
  | succ i => cases hinp

/-- The ring names output two, in block three, and goes back to output zero, in block one. -/
theorem maxUsed_misses_wrapped_ring :
    sampleSpending.ReachedBy samplePowEnv sampleGenesis sampleSpendingOps ∧
      .applyVoteOverflow ∉ sampleSpending.log ∧
      sampleSpending.checkTxInputs samplePowEnv 1000 (sampleRingTx [2, 0 - 2]) = .ok true ∧
      sampleReported [2, 0 - 2] = 1 ∧
      Refers samplePowEnv sampleSpending (sampleRingTx [2, 0 - 2]) 0 3 ∧
      ¬ IsMaxUsed samplePowEnv sampleSpending (sampleRingTx [2, 0 - 2]) (sampleReported [2, 0 - 2]) := by
  obtain ⟨recs, hrec⟩ :=
    sampleSpending_reachedBy.recorded sampleSpending_idsUnique sampleSpending_quiet
  have hheight : sampleSpending.heightAt (cpXpb, sampleReward) 2 = some 3 := by decide +kernel
  have hreported : sampleReported [2, 0 - 2] = 1 := by decide +kernel
  have hrefers : Refers samplePowEnv sampleSpending (sampleRingTx [2, 0 - 2]) 0 3 :=
    ⟨_, _, rfl, rfl, 2, by decide, hrec.heightAt_iff.mp hheight⟩
  refine ⟨sampleSpending_reachedBy, sampleSpending_quiet, by decide +kernel, hreported, hrefers,
    fun hmax => ?_⟩
  have hle := hmax.upper 0 3 hrefers
  omega

end Storage

end Pebblecoin
