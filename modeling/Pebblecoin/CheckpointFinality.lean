import Pebblecoin.CheckpointGuards

/-!
No sequence of received blocks changes the main chain at or below a checkpoint that it
has reached.
-/

namespace Pebblecoin

open Containers Control

theorem Checkpoints.lt_of_isAlternativeBlockAllowed {points : Checkpoints} {height blockHeight : Nat}
    (h : points.isAlternativeBlockAllowed height blockHeight = true) {c : Nat}
    (hc : points.find? c ≠ none) (hle : c ≤ height) : c < blockHeight := by
  obtain ⟨id, hid⟩ := Option.ne_none_iff_exists'.mp hc
  have hmem := OrdMap.mem_toList.mpr hid
  unfold Checkpoints.isAlternativeBlockAllowed at h
  split at h
  · cases h
  split at h
  · rename_i hnone
    have hempty := List.getLast?_eq_none_iff.mp hnone
    rw [List.filter_eq_nil_iff] at hempty
    exact absurd (by simpa using hle) (hempty _ hmem)
  · rename_i p hp
    have hlast := OrdMap.le_of_getLast?_filter hp hmem (by simpa using hle)
    exact lt_of_le_of_lt hlast (of_decide_eq_true h)

theorem Checkpoints.isInCheckpointZone_of_find? {points : Checkpoints} {c : Nat} {id : Hash}
    (h : points.find? c = some id) : points.isInCheckpointZone c = true := by
  have hmem := OrdMap.mem_toList.mpr h
  cases hlast : points.toList.getLast? with
  | none =>
    rw [List.getLast?_eq_none_iff.mp hlast] at hmem
    cases hmem
  | some p =>
    have hle := OrdMap.le_of_getLast?_filter (m := points) (f := fun _ => true)
      (by rwa [List.filter_true]) hmem rfl
    simpa [Checkpoints.isInCheckpointZone, hlast] using hle

namespace Storage

variable {env : Env} {now : UInt64} {V : Hash → Transaction → Prop} {D : Block → Prop}

/-- A stored chain, and the part of it that is a branch. -/
structure Fork (below above : List (Hash × Block)) (s : Storage) : Prop where
  lineage : s.Lineage (below ++ above)
  nonempty : below ≠ []
  leaves : ∀ p, below.getLast? = some p → s.alternativeChainEntries p.1 = none
  alternatives : ∀ p ∈ above, s.alternativeChainEntries p.1 ≠ none

section Fork

variable {s t : Storage} {below above : List (Hash × Block)}

theorem OnMain.fork {prevId : Hash} {branch : List Hash} {timestamps window : List UInt64}
    (h : OnMain env s prevId branch timestamps window below above) : Fork below above s := by
  refine ⟨h.lineage, h.toBranchOf.nonempty, h.toBranchOf.leaves, fun p hp => ?_⟩
  have hmem : p.1 ∈ branch := by
    rw [← h.toBranchOf.ids]
    exact List.mem_map_of_mem hp
  obtain ⟨work, hwork⟩ := eq_ok_of_mapM h.toBranchOf.works hmem
  obtain ⟨bl, -, hwork⟩ := bind_eq_ok_iff.mp hwork
  obtain ⟨bent, hbent, -⟩ := bind_eq_ok_iff.mp hwork
  rw [getAlternativeEntry_eq_ok hbent]
  exact Option.some_ne_none _

theorem Lineage.getLast?_take {chain : List (Hash × Block)} {i : Nat} {p : Hash × Block}
    (hp : chain[i]? = some p) : (chain.take (i + 1)).getLast?.map Prod.fst = some p.1 := by
  rw [List.getLast?_take, if_neg (by omega), Nat.add_sub_cancel, hp]
  rfl

theorem Fork.entry (h : Fork below above s) (hw : s.Worked env) {i : Nat} {p : Hash × Block}
    (hi : below.length ≤ i) (hp : (below ++ above)[i]? = some p) :
    ∃ bent, s.alternativeChainEntries p.1 = some bent ∧ bent.height = i := by
  have hmem : p ∈ above := by
    rw [List.getElem?_append_right hi] at hp
    exact List.mem_of_getElem? hp
  obtain ⟨bent, hbent⟩ := Option.ne_none_iff_exists'.mp (h.alternatives p hmem)
  obtain ⟨lower, b, -, hchain, hheight, -⟩ :=
    hw.alternative (h.lineage.take (i + 1)) (Lineage.getLast?_take hp) hbent
  refine ⟨bent, hbent, ?_⟩
  have hlength := congrArg List.length hchain
  have hlt := (List.getElem?_eq_some_iff.mp hp).1
  simp only [List.length_take, List.length_append, List.length_singleton] at hlength hlt
  omega

/-- A barred chain that shares a block with the branch leaves the main chain at the same
place or above. -/
theorem Fork.le_split {chain : List (Hash × Block)} {split b i : Nat} {p : Hash × Block}
    (h : Fork below above s) (hb : Barrier env chain split b s)
    (hp : chain[i]? = some p) (hmem : p.1 ∈ above.map Prod.fst) : below.length ≤ split := by
  obtain ⟨j, hj⟩ := List.mem_iff_getElem?.mp hmem
  obtain ⟨q, hq, hkey⟩ := Option.map_eq_some_iff.mp (List.getElem?_map .. ▸ hj)
  have hq' : (below ++ above)[below.length + j]? = some q := by
    rw [List.getElem?_append_right (by omega), Nat.add_sub_cancel_left, hq]
  have hsame : chain.take (i + 1) = (below ++ above).take (below.length + j + 1) := by
    refine (hb.lineage.take _).unique (h.lineage.take _) (Lineage.getLast?_take hp) ?_
    rw [Lineage.getLast?_take hq', hkey]
  have hlt := (List.getElem?_eq_some_iff.mp hp).1
  have hlt' := (List.getElem?_eq_some_iff.mp hq').1
  have hlength := congrArg List.length hsame
  simp only [List.length_take] at hlength
  by_contra hless
  -- then the block below the branch would be an alternative one too
  have hpos := List.length_pos_iff.mpr h.nonempty
  obtain ⟨f, hf⟩ : ∃ f, below.getLast? = some f := ⟨_, List.getLast?_eq_some_getLast h.nonempty⟩
  refine hb.alternatives (below.length - 1) f (by omega) ?_ (h.leaves f hf)
  calc chain[below.length - 1]? = (chain.take (i + 1))[below.length - 1]? :=
        (List.getElem?_take_of_lt (by omega)).symm
    _ = (below ++ above)[below.length - 1]? := by
        rw [hsame, List.getElem?_take_of_lt (by omega)]
    _ = some f := by
        rw [List.getElem?_append_left (by omega), ← List.getLast?_eq_getElem?, hf]

theorem Fork.avoids (h : Fork below above s) (hl : Labels env V D) (hreg : Regular env V s)
    (hrun : Actions env D now s t) (hlength : t.entries.length = below.length) :
    Avoids env s (above.map Prod.fst) := by
  intro chain split b hb i p _ hp hmem
  have hle := h.le_split hb hp hmem
  have hlt := (hb.stuck.actions hreg hl.rehashes hl.apart hl.offered hrun).lt
  have hsplit := hb.split_le
  omega

theorem Fork.clear (h : Fork below above s) (hw : s.Worked env) (hg : Guarded env s)
    (hallowed : env.checkpoints.isAlternativeBlockAllowed (s.entries.length - 1)
      (below ++ above).length = true) : Clear env below.length s := by
  intro c hc hlt
  by_contra hne
  have hbelow := Checkpoints.lt_of_isAlternativeBlockAllowed hallowed hne (by omega)
  obtain ⟨bent, hbent, hheight⟩ :=
    h.entry hw hc (List.getElem?_eq_getElem hbelow)
  have hle := hg.unreached _ bent hbent (by rwa [hheight])
  omega

end Fork

section Place

variable {s s₁ : Storage} {fuel : Nat} {b : Block} {id : Hash} {place : AltPlacement}

theorem prepareAlternativeBlock_error {exit : AltExit}
    (h : s.prepareAlternativeBlock env fuel b id = .ok (.error exit, s₁)) :
    s₁.entries = s.entries ∧ s₁.alternativeChainEntries = s.alternativeChainEntries := by
  unfold prepareAlternativeBlock at h
  split at h
  · cases h
    exact ⟨rfl, rfl⟩
  split at h
  · cases h
    exact ⟨rfl, rfl⟩
  split at h
  · cases h
    exact ⟨rfl, rfl⟩
  obtain ⟨⟨branch, timestamps⟩, hbranch, h⟩ := bind_eq_ok_iff.mp h
  obtain ⟨stamps, hstamps, h⟩ := bind_eq_ok_iff.mp h
  cases stamps with
  | error exit' =>
    cases h
    exact ⟨rfl, rfl⟩
  | ok window =>
    obtain ⟨valid, -, h⟩ := bind_eq_ok_iff.mp h
    split at h
    · cases h
      exact ⟨rfl, rfl⟩
    · obtain rfl := placeAlternativeBlock_eq_error h
      exact ⟨rfl, rfl⟩

theorem prepareAlternativeBlock_allowed
    (h : s.prepareAlternativeBlock env fuel b id = .ok (.ok place, s₁)) :
    env.checkpoints.isAlternativeBlockAllowed (s.entries.length - 1)
      (getBlockHeight b).toNat = true := by
  unfold prepareAlternativeBlock at h
  split at h
  · simp at h
  split at h
  · simp at h
  · rename_i hallowed
    simpa [getCurrentBlockchainHeight] using hallowed

/-- The block has been placed at the end of the branch `above`. -/
structure Prepared (env : Env) (b : Block) (id : Hash) (below above : List (Hash × Block))
    (place : AltPlacement) (s s₁ : Storage) : Prop where
  entries : s₁.entries = s.entries
  alternatives : s₁.alternativeChainEntries =
    Function.update s.alternativeChainEntries id (some place.bent)
  fresh : s.alternativeChainEntries id = none
  fork : Fork below (above ++ [(id, b)]) s₁
  clear : Clear env below.length s
  height_le : below.length ≤ s.entries.length
  height_lt : b.prevId ≠ s.getTailId → below.length < s.entries.length
  chain : place.chain = (above ++ [(id, b)]).map Prod.fst
  bentHeight : place.bent.height = (below ++ above).length
  blockHeight : (getBlockHeight b).toNat = (below ++ above).length
  checkpoint : env.checkpoints.checkBlock (below ++ above).length id = (true, place.isACheckpoint)

theorem OnMain.height_lt {branch : List Hash} {timestamps window : List UInt64}
    {below above : List (Hash × Block)} (hw : s.Worked env)
    (h : OnMain env s b.prevId branch timestamps window below above)
    (hwindow : s.branchTimestamps branch timestamps (s.blocksIndex b.prevId) = .ok (.ok window))
    (htail : b.prevId ≠ s.getTailId) : below.length < s.entries.length := by
  cases branch with
  | cons front rest =>
    obtain ⟨bent, bl, hbent, hheight, -⟩ := branchTimestamps_cons_iff.mp hwindow
    rwa [h.toBranchOf.front front bent rfl (getAlternativeEntry_eq_ok hbent)] at hheight
  | nil =>
    refine lt_of_le_of_ne h.height_le fun heq => htail ?_
    have hlast := hw.index _ _ (h.index rfl)
    rw [heq, ← List.getLast?_eq_getElem?] at hlast
    rw [getTailId, hlast, Option.getD_some]

/-- The branch of a placed block.  What `Prepared` says beyond it needs the main chain to
have no checkpoint above the fork. -/
theorem prepareAlternativeBlock_fork (hs : s.Sound env) (hw : s.Worked env) (hfits : s.Fits b id)
    (hprep : s.prepareAlternativeBlock env fuel b id = .ok (.ok place, s₁)) :
    ∃ below above, Fork below above s ∧ Fork below (above ++ [(id, b)]) s₁ ∧
      place.chain = (above ++ [(id, b)]).map Prod.fst ∧
      (getBlockHeight b).toNat = (below ++ above).length ∧
      (Clear env below.length s → Prepared env b id below above place s s₁) := by
  obtain ⟨branch, timestamps, window, hbranch, hwindow, -, hplace⟩ :=
    prepareAlternativeBlock_eq_ok hprep
  obtain ⟨below, above, hon⟩ := branchTo_onMain hs hw hbranch hwindow
  obtain ⟨⟨prevHeight, prevDifficulty, diff, hplaced⟩, rfl⟩ := placeAlternativeBlock_eq_ok hplace
  obtain ⟨hheight, -⟩ := hon.previousWork_eq hw hplaced.previous
  have hgrow : BodiesGrow s { s with blocksByHash := Function.update s.blocksByHash id (some b) } :=
    .of_update hfits rfl
  have hblock : (getBlockHeight b).toNat = (below ++ above).length := by
    rw [getBlockHeight_of_prevalidate hplaced.prevalidated, hheight]
  have hfork := hon.fork
  have hlineage : Containers.Lineage (fun b : Block => b.prevId) (fun b => (getBlockHeight b).toNat)
      (Function.update s.blocksByHash id (some b)) (below ++ (above ++ [(id, b)])) := by
    rw [← List.append_assoc]
    refine Containers.Lineage.snoc_iff.mpr ⟨hon.lineage.grow hgrow, Function.update_self .., hblock,
      fun q hq => ?_⟩
    simpa [hq] using hon.last
  have hchain : place.chain = (above ++ [(id, b)]).map Prod.fst := by
    rw [hplaced.chain, List.map_append, hon.toBranchOf.ids]
    rfl
  have hfork₁ : Fork below (above ++ [(id, b)])
      { s with
        blocksByHash := Function.update s.blocksByHash id (some b)
        alternativeChainEntries :=
          Function.update s.alternativeChainEntries id (some place.bent) } := by
    refine ⟨hlineage, hfork.nonempty, fun p hp => ?_, fun p hp => ?_⟩
    · dsimp only
      rw [Function.update_of_ne, hfork.leaves p hp]
      -- the new block stands higher than the foot of the branch
      rintro rfl
      have hpos := List.length_pos_iff.mpr hfork.nonempty
      have hfoot : ((below ++ (above ++ [(p.1, b)])).map Prod.fst)[below.length - 1]? =
          some p.1 := by
        rw [List.getElem?_map, List.getElem?_append_left (by omega), ← List.getLast?_eq_getElem?, hp]
        rfl
      have htop : ((below ++ (above ++ [(p.1, b)])).map Prod.fst)[(below ++ above).length]? =
          some p.1 := by
        rw [← List.append_assoc, List.map_append, List.getElem?_append_right (by simp)]
        simp
      have hindex := hlineage.index_unique hfoot htop
      rw [List.length_append] at hindex
      omega
    · dsimp only
      rw [Function.update_apply]
      split
      · exact Option.some_ne_none _
      · rename_i hne
        rcases List.mem_append.mp hp with hp | hp
        · exact hfork.alternatives p hp
        · exact absurd (congrArg Prod.fst (List.mem_singleton.mp hp)) hne
  refine ⟨below, above, hfork, hfork₁, hchain, hblock, fun hclear => ?_⟩
  refine ⟨rfl, rfl, hplaced.fresh, hfork₁, hclear, hon.height_le, hon.height_lt hw hwindow, hchain,
    ?_, hblock, ?_⟩
  · rw [hplaced.bent, hheight]
  · rw [← hheight]
    exact hplaced.checkpoint

theorem prepareAlternativeBlock_prepared (h : Regular env V s) (hg : Guarded env s)
    (hfits : s.Fits b id)
    (hprep : s.prepareAlternativeBlock env fuel b id = .ok (.ok place, s₁)) :
    ∃ below above, Prepared env b id below above place s s₁ := by
  obtain ⟨below, above, hfork, -, -, hblock, hprepared⟩ :=
    prepareAlternativeBlock_fork h.sound h.worked hfits hprep
  refine ⟨below, above, hprepared (hfork.clear h.worked hg ?_)⟩
  rw [← hblock]
  exact prepareAlternativeBlock_allowed hprep

theorem Prepared.barrier {below above chain : List (Hash × Block)} {split n : Nat}
    (h : Prepared env b id below above place s s₁) (hl : Labels env V D) (hreg : Regular env V s)
    (hrun : Actions env D now s s₁) (hb : Barrier env chain split n s) :
    Barrier env chain split n s₁ := by
  refine hb.actions hl hreg hrun fun i p hi hp => ?_
  rw [h.alternatives, Function.update_apply]
  split
  · exact Option.some_ne_none _
  · exact hb.alternatives i p hi hp

theorem Prepared.gap {below above : List (Hash × Block)}
    (h : Prepared env b id below above place s s₁) (hl : Labels env V D) (hreg : Regular env V s)
    (hg : Guarded env s) (hrun : Actions env D now s s₁)
    (havoid : Avoids env s₁ ((above ++ [(id, b)]).map Prod.fst)) {c : Nat}
    (hc : below.length ≤ c) (hlt : c < (below ++ above).length) :
    env.checkpoints.find? c = none := by
  by_contra hne
  have hlt' : c < (below ++ (above ++ [(id, b)])).length := by
    rw [← List.append_assoc, List.length_append]
    omega
  have hp := List.getElem?_eq_getElem hlt'
  obtain ⟨bent, hbent, hheight⟩ := h.fork.entry (hl.regular hreg hrun).worked hc hp
  generalize (below ++ (above ++ [(id, b)]))[c] = p at hp hbent
  have hmem : p.1 ∈ (above ++ [(id, b)]).map Prod.fst := by
    rw [List.getElem?_append_right hc] at hp
    exact List.mem_map_of_mem (List.mem_of_getElem? hp)
  rw [h.alternatives, Function.update_apply] at hbent
  split at hbent
  · obtain rfl := Option.some.inj hbent
    have hplace := h.bentHeight
    omega
  · obtain ⟨chain, split, n, hlast, hb⟩ := hg.blocked _ bent hbent (by rwa [hheight])
    obtain ⟨q, hq, hkey⟩ := Option.map_eq_some_iff.mp hlast
    rw [List.getLast?_eq_getElem?] at hq
    have hsplit := hb.split_lt
    refine havoid chain split n (h.barrier hl hreg hrun hb) _ q (by omega) hq ?_
    rwa [hkey]

theorem Prepared.kept {below above : List (Hash × Block)}
    (h : Prepared env b id below above place s s₁) (hl : Labels env V D) (hreg : Regular env V s)
    (hrun : Actions env D now s s₁)
    (hnone : env.checkpoints.find? (getBlockHeight b).toNat = none) : Kept env s s₁ := by
  refine ⟨⟨fun c _ _ => by rw [h.entries], fun chain split n hb => h.barrier hl hreg hrun hb,
    fun k bent hbent hc => ?_⟩, fun n hn c hc hlt => hn c hc (by rwa [h.entries] at hlt)⟩
  rw [h.alternatives, Function.update_apply] at hbent
  split at hbent
  · obtain rfl := Option.some.inj hbent
    rw [h.bentHeight, ← h.blockHeight, hnone] at hc
    exact absurd rfl hc
  · exact hbent

end Place

section Switch

variable {s : Storage} {below above : List (Hash × Block)}
  {handle : Block → Hash → Storage → Except Interrupted (AltExit × Storage)}

variable (env V D now) in
/-- What the handler of alternative blocks keeps, for blocks at heights without a
checkpoint. -/
def HandlesKept (handle : Block → Hash → Storage → Except Interrupted (AltExit × Storage)) : Prop :=
  ∀ b id s, Regular env V s → Guarded env s → s.Offered D b id →
    getBlockHash env.crypto b = some id → s.Fits b id →
    env.checkpoints.find? (getBlockHeight b).toNat = none →
    Returns (handle b id s) fun r => Actions env D now s r.2 ∧ Kept env s r.2

theorem pushAlternatives_kept (hl : Labels env V D) (hhandle : HandlesKept env now V D handle)
    {bs : List Block} {s : Storage} (h : Regular env V s) (hg : Guarded env s)
    (hbs : OffCheckpoints env bs s) :
    Returns (s.pushAlternatives env handle bs) fun r =>
      Actions env D now s r.2 ∧ Kept env s r.2 := by
  induction bs generalizing s with
  | nil => exact Returns.ok_iff.mpr ⟨.refl, .refl s⟩
  | cons b bs ih =>
    obtain ⟨id, hid, hbody⟩ := hbs.stored b (by simp)
    rw [pushAlternatives, hid, Option.getD_some]
    refine Returns.bind (hhandle b id s h hg (Or.inr hbody) hid (fits_of_stored hbody)
      (hbs.heights b (by simp))) fun r hr => ?_
    obtain ⟨exit, s₁⟩ := r
    obtain ⟨hrun, hkept⟩ := hr
    dsimp only at hrun hkept ⊢
    split
    · refine (ih (hl.regular h hrun) (hg.kept hkept) ?_).mono
        fun r' hr' => ⟨hrun.trans hr'.1, hkept.trans hr'.2⟩
      exact OffCheckpoints.grow ⟨fun c hc => hbs.stored c (by simp [hc]),
        fun c hc => hbs.heights c (by simp [hc])⟩ (Actions.bodiesGrow hrun h.sound)
    · exact Returns.ok_iff.mpr ⟨hrun, hkept⟩

/-- The branch that is switched to, in the storage that has it. -/
structure Switching (env : Env) (below above : List (Hash × Block)) (s : Storage) : Prop where
  fork : Fork below above s
  clear : Clear env below.length s
  height_le : below.length ≤ s.entries.length
  gap : Avoids env s (above.map Prod.fst) → ∀ c, below.length ≤ c →
    c + 1 < (below ++ above).length → env.checkpoints.find? c = none

theorem Switching.front {p : Hash × Block} (h : Switching env below (p :: above) s)
    (hw : s.Worked env) :
    Returns ((·.height) <$> s.getAlternativeEntry p.1) fun height => height = below.length := by
  have hp : (below ++ p :: above)[below.length]? = some p := by simp
  obtain ⟨bent, hbent, hheight⟩ := h.fork.entry hw (Nat.le_refl _) hp
  refine Returns.map ⟨fun bent' hbent' => ?_⟩
  rw [getAlternativeEntry_eq_ok hbent'] at hbent
  rw [Option.some.inj hbent, hheight]

theorem Switching.disconnect (hl : Labels env V D) (h : Switching env below above s)
    (hreg : Regular env V s) :
    Returns (s.disconnectBlocks env now (s.entries.length - below.length) []) fun r =>
      ChainActions env D now s r.2 ∧ Kept env s r.2 ∧
      (r.1 = none → ∃ b, below.length ≤ b ∧ StuckAt env b r.2) ∧
      ∀ bs, r.1 = some bs → r.2.entries.length = below.length ∧ OffCheckpoints env bs r.2 := by
  have hpos := List.length_pos_iff.mpr h.fork.nonempty
  have hle := h.height_le
  exact disconnectBlocks_kept hl _ hreg hpos (by omega) h.clear ⟨by simp [StoredBlocks], by simp⟩

theorem Switching.connect {t : Storage} {disconnected : List Block} (hl : Labels env V D)
    (h : Switching env below above s) (hreg : Regular env V s) (hrun : Actions env D now s t)
    (hkept : Kept env s t) (hlength : t.entries.length = below.length)
    (hdisc : OffCheckpoints env disconnected t) :
    Avoids env s (above.map Prod.fst) ∧
      Returns (t.connectBranch env now disconnected below.length (above.map Prod.fst)) fun r =>
        (r.1 = false → Kept env s r.2 ∧ ∀ last, (above.map Prod.fst).getLast? = some last →
          r.2.alternativeChainEntries last = none) ∧
        (r.1 = true → Held env s r.2 ∧ r.2.entries.length = (below ++ above).length ∧
          ((∀ c, below.length ≤ c → c < (below ++ above).length →
            env.checkpoints.find? c = none) → Kept env s r.2)) := by
  have havoid := h.fork.avoids hl hreg hrun hlength
  have hheight : t.entries.length + (above.map Prod.fst).length = (below ++ above).length := by
    rw [hlength, List.length_map, List.length_append]
  refine ⟨havoid, (connectBranch_kept hl (hl.regular hreg hrun) hkept (hkept.clear _ h.clear) hdisc
    havoid fun c hc hlt => h.gap havoid c (by omega) (by omega)).mono fun r hr => ?_⟩
  rwa [hheight, hlength] at hr

theorem Held.erase {t : Storage} {ids : List Hash} (hl : Labels env V D) (h : Held env s t)
    (hreg : Regular env V t) (havoid : Avoids env s ids) :
    Held env s (t.eraseAlternatives ids) := by
  have hrun : Actions env D 0 t (t.eraseAlternatives ids) := .single (.eraseAlternatives ids)
  exact h.forget hl hreg havoid hrun rfl fun _ => rfl

theorem Kept.erase {t : Storage} {ids : List Hash} (hl : Labels env V D) (h : Kept env s t)
    (hreg : Regular env V t) (havoid : Avoids env s ids) :
    Kept env s (t.eraseAlternatives ids) :=
  ⟨h.toHeld.erase hl hreg havoid, h.clear⟩

theorem switchToAlternativeBlockchain_kept (hl : Labels env V D)
    (hhandle : HandlesKept env now V D handle) (hreg : Regular env V s) (hg : Guarded env s)
    (h : Switching env below above s)
    (htop : ∀ c, c + 1 = (below ++ above).length → env.checkpoints.find? c = none) :
    Returns (s.switchToAlternativeBlockchain env now handle (above.map Prod.fst) false) fun r =>
      Kept env s r.2 := by
  cases above with
  | nil => exact Returns.ok_iff.mpr (.refl s)
  | cons p above =>
    refine Returns.bind (returns_reading (h.front hreg.worked)) fun split hsplit => ?_
    subst hsplit
    split
    · exact Returns.ok_iff.mpr (.refl s)
    refine Returns.bind (h.disconnect hl hreg) fun r hr => ?_
    obtain ⟨disconnected, s₁⟩ := r
    obtain ⟨hpop, hkept₁, -, hdone⟩ := hr
    cases disconnected with
    | none => exact Returns.ok_iff.mpr hkept₁
    | some disconnected =>
      obtain ⟨hlength, hdisc⟩ := hdone _ rfl
      obtain ⟨havoid, hconnect⟩ := h.connect hl hreg hpop.actions hkept₁ hlength hdisc
      have hreg₁ := hl.regular hreg hpop.actions
      refine Returns.bind (P := fun r => Actions env D now s₁ r.2 ∧ _)
        ⟨fun r hr => ⟨(connectBranch_actions hreg₁.sound hdisc.stored).out r hr,
          hconnect.out r hr⟩⟩ fun r hr => ?_
      obtain ⟨connected, s₂⟩ := r
      obtain ⟨hrun, hfalse, htrue⟩ := hr
      have hrun₂ := hpop.actions.trans hrun
      dsimp only at hrun hrun₂ hfalse htrue ⊢
      cases connected with
      | false => exact Returns.ok_iff.mpr (hfalse rfl).1
      | true =>
        have hkept₂ : Kept env s s₂ := by
          refine (htrue rfl).2.2 fun c hc hlt => ?_
          rcases Nat.lt_or_ge (c + 1) (below ++ p :: above).length with hlow | hhigh
          · exact h.gap havoid c hc hlow
          · exact htop c (by omega)
        have hreg₂ := hl.regular hreg hrun₂
        have hdisc₂ := hdisc.grow (Actions.bodiesGrow hrun hreg₁.sound)
        refine Returns.bind (pushAlternatives_kept hl hhandle hreg₂ (hg.kept hkept₂) hdisc₂)
          fun r hr => ?_
        obtain ⟨pushed, s₃⟩ := r
        obtain ⟨hpush, hkept₃⟩ := hr
        have hkept₃ := hkept₂.trans hkept₃
        have hrun₃ := hrun₂.trans hpush
        have hreg₃ := hl.regular hreg hrun₃
        cases pushed with
        | true =>
          exact Returns.ok_iff.mpr (hkept₃.erase hl hreg₃ havoid)
        | false =>
          have hlog : Actions env D now s₃
              { s₃ with log := .pushExMainFailed :: s₃.log } := .single .logPushFailed
          have hnone : Avoids env s [] := fun _ _ _ _ _ _ _ _ hmem => nomatch hmem
          have hkept₄ : Kept env s { s₃ with log := .pushExMainFailed :: s₃.log } :=
            hkept₃.forget hl hreg₃ hnone hlog rfl (by simp)
          refine Returns.bind (rollbackBlockchainSwitching_kept hl (hl.regular hreg₃ hlog)
            (hkept₄.clear _ h.clear) ((hdisc₂.grow
              (Actions.bodiesGrow hpush hreg₂.sound)).grow (.refl _))) fun r hr => ?_
          exact Returns.ok_iff.mpr (hkept₄.trans hr.2)

/-- A switch that a checkpoint has forced.  The block of the checkpoint stays an
alternative one only if a block of the main chain is stuck. -/
theorem switchToAlternativeBlockchain_forced (hl : Labels env V D) (hreg : Regular env V s)
    (h : Switching env below above s) (hlt : below.length < s.entries.length) {last : Hash}
    (hlast : (above.map Prod.fst).getLast? = some last) :
    Returns (s.switchToAlternativeBlockchain env now handle (above.map Prod.fst) true) fun r =>
      Kept env s r.2 ∧ BodiesGrow s r.2 ∧
        r.2.alternativeChainEntries = s.alternativeChainEntries ∧
        (∃ b, below.length ≤ b ∧ StuckAt env b r.2) ∨
      Kept env s r.2 ∧ r.2.alternativeChainEntries last = none ∨
      Held env s r.2 ∧ r.2.alternativeChainEntries last = none ∧
        r.2.entries.length = (below ++ above).length ∧
        ∀ c, below.length ≤ c → c + 1 < (below ++ above).length →
          env.checkpoints.find? c = none := by
  cases above with
  | nil => simp at hlast
  | cons p above =>
    refine Returns.bind (returns_reading (h.front hreg.worked)) fun split hsplit => ?_
    subst hsplit
    rw [if_neg (Nat.not_le.mpr hlt)]
    refine Returns.bind (h.disconnect hl hreg) fun r hr => ?_
    obtain ⟨disconnected, s₁⟩ := r
    obtain ⟨hpop, hkept₁, hfailed, hdone⟩ := hr
    cases disconnected with
    | none =>
      exact Returns.ok_iff.mpr (Or.inl ⟨hkept₁, hpop.bodiesGrow hreg.sound, hpop.alternatives,
        hfailed rfl⟩)
    | some disconnected =>
      obtain ⟨hlength, hdisc⟩ := hdone _ rfl
      obtain ⟨havoid, hconnect⟩ := h.connect hl hreg hpop.actions hkept₁ hlength hdisc
      have hreg₁ := hl.regular hreg hpop.actions
      refine Returns.bind (P := fun r => Actions env D now s₁ r.2 ∧ _)
        ⟨fun r hr => ⟨(connectBranch_actions hreg₁.sound hdisc.stored).out r hr,
          hconnect.out r hr⟩⟩ fun r hr => ?_
      obtain ⟨connected, s₂⟩ := r
      obtain ⟨hrun, hfalse, htrue⟩ := hr
      dsimp only at hrun hfalse htrue ⊢
      cases connected with
      | false =>
        obtain ⟨hkept₂, hgone⟩ := hfalse rfl
        exact Returns.ok_iff.mpr (Or.inr (Or.inl ⟨hkept₂, hgone last hlast⟩))
      | true =>
        obtain ⟨hheld, hlength₂, -⟩ := htrue rfl
        have hreg₂ := hl.regular hreg₁ hrun
        refine Returns.ok_iff.mpr (Or.inr (Or.inr ⟨hheld.erase hl hreg₂ havoid, ?_, hlength₂,
          h.gap havoid⟩))
        exact if_pos (List.mem_of_getLast? hlast)

end Switch

section Handle

variable {s s₁ t : Storage} {b : Block} {id : Hash} {place : AltPlacement}
  {below above : List (Hash × Block)}

theorem Prepared.switching (h : Prepared env b id below above place s s₁) (hl : Labels env V D)
    (hreg : Regular env V s) (hg : Guarded env s) (hrun : Actions env D now s s₁) :
    Switching env below (above ++ [(id, b)]) s₁ := by
  refine ⟨h.fork, fun c hc hlt => h.clear c hc (by rwa [h.entries] at hlt),
    by rw [h.entries]; exact h.height_le, fun havoid c hc hlt => ?_⟩
  refine h.gap hl hreg hg hrun havoid hc ?_
  rw [← List.append_assoc, List.length_append, List.length_singleton] at hlt
  omega

theorem Kept.of_same (hl : Labels env V D) (hreg : Regular env V s) (hrun : Actions env D now s s₁)
    (hentries : s₁.entries = s.entries)
    (halt : s₁.alternativeChainEntries = s.alternativeChainEntries) : Kept env s s₁ := by
  refine ⟨.of_chainActions hl hreg ⟨hrun, halt⟩ fun c _ _ => by rw [hentries], fun n hn c hc hlt => ?_⟩
  exact hn c hc (by rwa [hentries] at hlt)

theorem handleAlternativeBlock_kept (hl : Labels env V D) (fuel : Nat) :
    HandlesKept env now V D (handleAlternativeBlock env now fuel) := by
  induction fuel with
  | zero => exact fun _ _ _ _ _ _ _ _ _ => Returns.error
  | succ fuel ih =>
    intro b id s hreg hg hoffered hid hfits hnone
    refine ⟨fun r hr => ⟨(handleAlternativeBlock_actions (fuel + 1) b id s hreg.sound hoffered hid
      hfits).out r hr, ?_⟩⟩
    rw [handleAlternativeBlock] at hr
    obtain ⟨⟨p, s₁⟩, hprep, hr⟩ := bind_eq_ok_iff.mp hr
    have hrun := (prepareAlternativeBlock_actions now hoffered hid hfits).out _ hprep
    cases p with
    | error exit =>
      obtain rfl := Except.ok.inj hr
      obtain ⟨hentries, halt⟩ := prepareAlternativeBlock_error hprep
      exact .of_same hl hreg hrun hentries halt
    | ok place =>
      obtain ⟨below, above, hprepared⟩ := prepareAlternativeBlock_prepared hreg hg hfits hprep
      have hkept := hprepared.kept hl hreg hrun hnone
      have hcheckpoint : place.isACheckpoint = false := by
        have hcheck := hprepared.checkpoint
        rw [Checkpoints.checkBlock, ← hprepared.blockHeight, hnone] at hcheck
        exact (congrArg Prod.snd hcheck).symm
      dsimp only at hr
      split at hr
      · obtain ⟨r', hswitch, hr⟩ := bind_eq_ok_iff.mp hr
        obtain rfl := Except.ok.inj hr
        rw [hcheckpoint, hprepared.chain] at hswitch
        refine hkept.trans ((switchToAlternativeBlockchain_kept hl ih (hl.regular hreg hrun)
          (hg.kept hkept) (hprepared.switching hl hreg hg hrun) fun c hc => ?_).out _ hswitch)
        rw [← List.append_assoc, List.length_append, List.length_singleton,
          Nat.add_right_cancel_iff] at hc
        rw [hc, ← hprepared.blockHeight, hnone]
      · obtain rfl := Except.ok.inj hr
        exact hkept

/-- The alternative blocks at the heights of checkpoints, after the switch that a
checkpoint has forced. -/
theorem Prepared.guarded (h : Prepared env b id below above place s s₁) (hg : Guarded env s)
    (hbarrier : ∀ chain split n, Barrier env chain split n s → Barrier env chain split n s₁)
    (hheld : Held env s₁ t)
    (hothers : ∀ c, env.checkpoints.find? c ≠ none → s.entries.length ≤ c →
      c ≠ (below ++ above).length → t.entries.length ≤ c)
    (hself : t.alternativeChainEntries id ≠ none → t.entries.length ≤ (below ++ above).length ∧
      ∃ chain split n, chain.getLast?.map Prod.fst = some id ∧ Barrier env chain split n t)
    (hcheckpoint : ∀ id', env.checkpoints.find? (below ++ above).length = some id' → id' = id) :
    Guarded env t := by
  have hcases : ∀ k bent, t.alternativeChainEntries k = some bent →
      env.checkpoints.find? bent.height ≠ none → k = id ∧ bent.height = (below ++ above).length ∨
        s.alternativeChainEntries k = some bent ∧ k ≠ id := by
    intro k bent hbent hc
    have hold := hheld.alternatives k bent hbent hc
    rw [h.alternatives, Function.update_apply] at hold
    split at hold
    · rename_i hk
      exact Or.inl ⟨hk, by rw [← Option.some.inj hold]; exact h.bentHeight⟩
    · rename_i hk
      exact Or.inr ⟨hold, hk⟩
  refine ⟨fun k bent hbent id' hid' => ?_, fun k bent hbent hc => ?_, fun k bent hbent hc => ?_⟩
  · rcases hcases k bent hbent (by simp [hid']) with ⟨rfl, hheight⟩ | ⟨hold, -⟩
    · exact hcheckpoint id' (by rwa [hheight] at hid')
    · exact hg.expected k bent hold id' hid'
  · rcases hcases k bent hbent hc with ⟨rfl, hheight⟩ | ⟨hold, hne⟩
    · rw [hheight]
      exact (hself (by simp [hbent])).1
    · refine hothers _ hc (hg.unreached k bent hold hc) fun hheight => hne ?_
      obtain ⟨id', hid'⟩ := Option.ne_none_iff_exists'.mp hc
      rw [← hg.expected k bent hold id' hid']
      exact hcheckpoint id' (by rwa [hheight] at hid')
  · rcases hcases k bent hbent hc with ⟨rfl, -⟩ | ⟨hold, -⟩
    · exact (hself (by simp [hbent])).2
    · obtain ⟨chain, split, n, hlast, hb⟩ := hg.blocked k bent hold hc
      exact ⟨chain, split, n, hlast, hheld.barriers _ _ _ (hbarrier _ _ _ hb)⟩

theorem Prepared.forced {handle : Block → Hash → Storage → Except Interrupted (AltExit × Storage)}
    (h : Prepared env b id below above place s s₁) (hl : Labels env V D)
    (hreg : Regular env V s) (hg : Guarded env s) (hrun : Actions env D now s s₁)
    (htail : b.prevId ≠ s.getTailId)
    (hsome : env.checkpoints.find? (getBlockHeight b).toNat ≠ none) :
    Returns (s₁.switchToAlternativeBlockchain env now handle place.chain true) fun r =>
      Final env s₁ r.2 ∧ Guarded env r.2 := by
  have hreg₁ := hl.regular hreg hrun
  have hswitching := h.switching hl hreg hg hrun
  have hlt : below.length < s₁.entries.length := by
    rw [h.entries]
    exact h.height_lt htail
  have hlast : ((above ++ [(id, b)]).map Prod.fst).getLast? = some id := by simp
  have htop : (below ++ (above ++ [(id, b)])).length = (below ++ above).length + 1 := by
    rw [← List.append_assoc, List.length_append, List.length_singleton]
  have hcheckpoint : ∀ id', env.checkpoints.find? (below ++ above).length = some id' → id' = id := by
    intro id' hid'
    have hcheck := h.checkpoint
    rw [Checkpoints.checkBlock, hid'] at hcheck
    simpa using congrArg Prod.fst hcheck
  have hbarrier : ∀ chain split n, Barrier env chain split n s → Barrier env chain split n s₁ :=
    fun _ _ _ hb => h.barrier hl hreg hrun hb
  rw [h.blockHeight] at hsome
  rw [h.chain]
  refine (switchToAlternativeBlockchain_forced hl hreg₁ hswitching hlt hlast).mono fun r hr => ?_
  -- without a further checkpoint all that were not reached still lie ahead
  have hahead : ∀ {t : Storage}, Kept env s₁ t → ∀ c, env.checkpoints.find? c ≠ none →
      s.entries.length ≤ c → t.entries.length ≤ c := by
    intro t hkept c hc hle
    by_contra hlt
    refine hc (hkept.clear _ (clear_length env s₁) c ?_ (Nat.lt_of_not_le hlt))
    rwa [h.entries]
  rcases hr with ⟨hkept, hgrow, halt, n, hn, hstuck⟩ | ⟨hkept, hgone⟩ | ⟨hheld, hgone, hlength, hgap⟩
  · refine ⟨hkept.final, h.guarded hg hbarrier hkept.toHeld (fun c hc hle _ => hahead hkept c hc hle)
      (fun _ => ⟨?_, below ++ (above ++ [(id, b)]), below.length, n, by simp, ?_⟩) hcheckpoint⟩
    · by_contra hless
      exact hsome (hkept.clear _ hswitching.clear _ (by rw [List.length_append]; omega)
        (Nat.lt_of_not_le hless))
    · refine ⟨h.fork.lineage.grow hgrow, hstuck, hn, by rw [htop, List.length_append]; omega, ?_⟩
      intro i p hi hp
      rw [halt]
      rw [List.getElem?_append_right hi] at hp
      exact h.fork.alternatives p (List.mem_of_getElem? hp)
  · exact ⟨hkept.final, h.guarded hg hbarrier hkept.toHeld (fun c hc hle _ => hahead hkept c hc hle)
      (fun hne => absurd hgone hne) hcheckpoint⟩
  · refine ⟨hheld.final, h.guarded hg hbarrier hheld (fun c hc hle hne => ?_)
      (fun hne => absurd hgone hne) hcheckpoint⟩
    by_contra hless
    have hle' := h.height_le
    exact hc (hgap c (by omega) (by omega))

theorem handleAlternativeBlock_guarded (hl : Labels env V D) (fuel : Nat) (hreg : Regular env V s)
    (hg : Guarded env s) (hoffered : s.Offered D b id) (hid : getBlockHash env.crypto b = some id)
    (hfits : s.Fits b id) (htail : b.prevId ≠ s.getTailId) :
    Returns (s.handleAlternativeBlock env now fuel b id) fun r =>
      Final env s r.2 ∧ Guarded env r.2 := by
  by_cases hnone : env.checkpoints.find? (getBlockHeight b).toNat = none
  · refine (handleAlternativeBlock_kept hl fuel b id s hreg hg hoffered hid hfits hnone).mono
      fun r hr => ?_
    exact ⟨hr.2.final, hg.kept hr.2⟩
  cases fuel with
  | zero => exact Returns.error
  | succ fuel =>
    rw [handleAlternativeBlock]
    refine ⟨fun r hr => ?_⟩
    obtain ⟨⟨p, s₁⟩, hprep, hr⟩ := bind_eq_ok_iff.mp hr
    have hrun := (prepareAlternativeBlock_actions now hoffered hid hfits).out _ hprep
    cases p with
    | error exit =>
      obtain rfl := Except.ok.inj hr
      obtain ⟨hentries, halt⟩ := prepareAlternativeBlock_error hprep
      have hkept := Kept.of_same hl hreg hrun hentries halt
      exact ⟨hkept.final, hg.kept hkept⟩
    | ok place =>
      obtain ⟨below, above, hprepared⟩ := prepareAlternativeBlock_prepared hreg hg hfits hprep
      have hcheckpoint : place.isACheckpoint = true := by
        obtain ⟨id', hid'⟩ := Option.ne_none_iff_exists'.mp hnone
        have hcheck := hprepared.checkpoint
        rw [Checkpoints.checkBlock, ← hprepared.blockHeight, hid'] at hcheck
        exact (congrArg Prod.snd hcheck).symm
      dsimp only at hr
      rw [hcheckpoint, Bool.true_or, if_pos rfl] at hr
      obtain ⟨r', hswitch, hr⟩ := bind_eq_ok_iff.mp hr
      obtain rfl := Except.ok.inj hr
      obtain ⟨hfinal, hguarded⟩ :=
        (hprepared.forced hl hreg hg hrun htail hnone).out _ hswitch
      refine ⟨fun c hc hlt => ?_, hguarded⟩
      rw [hfinal c hc (by rwa [hprepared.entries]), hprepared.entries]

theorem expected_of_checkProof (h : s.checkProof env b id = .ok none) {id' : Hash}
    (hid' : env.checkpoints.find? s.entries.length = some id') : id' = id := by
  have hheight : s.getCurrentBlockchainHeight = s.entries.length := rfl
  rw [checkProof, hheight, if_pos (Checkpoints.isInCheckpointZone_of_find? hid'),
    Checkpoints.checkBlock, hid'] at h
  by_contra hne
  simp [hne] at h

theorem addNewBlock_guarded (hl : Labels env V D) (fuel : Nat) (hreg : Regular env V s)
    (hg : Guarded env s) (hb : D b) :
    Returns (s.addNewBlock env now fuel b) fun r => Final env s r.2 ∧ Guarded env r.2 := by
  unfold addNewBlock
  split
  · exact Returns.ok_iff.mpr ⟨fun _ _ _ => rfl, hg⟩
  rename_i id hid
  split
  · exact Returns.ok_iff.mpr ⟨fun _ _ _ => rfl, hg⟩
  rename_i hhave
  have hnew : s.blocksByHash id = none := by simpa [haveBlock] using hhave
  have hfits : s.Fits b id := by
    intro b' hb'
    rw [hnew] at hb'
    cases hb'
  split
  · refine Returns.bind_ok fun r hr => Returns.ok_iff.mpr ?_
    obtain ⟨exit, s₁⟩ := r
    obtain ⟨hheld, -, hadded, hkept⟩ :=
      handleBlockToMainChain_held hl hreg (Or.inl hb) hid hfits hr
    refine ⟨hheld.final, ?_⟩
    by_cases hreach : exit = .added → env.checkpoints.find? s.entries.length = none
    · exact hg.kept (hkept hreach)
    push Not at hreach
    obtain ⟨hexit, hreach⟩ := hreach
    obtain ⟨hlength, -, hproof⟩ := hadded hexit
    refine hg.keep (fun k bent hbent hc => ?_) hheld.barriers
    have hold := hheld.alternatives k bent hbent hc
    have hle := hg.unreached k bent hold hc
    -- the block that has just arrived was not an alternative one
    have hne : bent.height ≠ s.entries.length := by
      intro hheight
      obtain ⟨id', hid'⟩ := Option.ne_none_iff_exists'.mp hreach
      obtain rfl := expected_of_checkProof hproof hid'
      obtain rfl := hg.expected k bent hold id' (by rwa [hheight])
      have hbody := (hreg.sound.alternatives id' bent hold).2
      rw [hnew] at hbody
      cases hbody
    refine ⟨hold, ?_⟩
    dsimp only
    omega
  · rename_i htail
    refine Returns.bind (handleAlternativeBlock_guarded hl fuel hreg hg (Or.inl hb) hid hfits htail)
      fun r hr => ?_
    exact Returns.ok_iff.mpr hr

end Handle

section Runs

variable {s s' : Storage} {ops : List (UInt64 × Op)}

theorem Guarded.pop {popped : Bool} (hl : Labels env V D) (hreg : Regular env V s)
    (hg : Guarded env s) (hpop : s.popBlockFromBlockchain env now = .ok (popped, s')) :
    Guarded env s' := by
  have hrun : ChainActions env D now s s' := .of_pop hpop
  have hframe := PopFrame.of_pop hpop
  have hlength : s'.entries.length ≤ s.entries.length := by
    cases popped with
    | false => rw [(hframe.failed rfl).1]
    | true =>
      rw [(hframe.done rfl).2.1, List.length_dropLast]
      omega
  refine hg.keep (fun k bent hbent hc => ?_) fun chain split n hb => hb.actions hl hreg hrun.actions ?_
  · rw [hrun.alternatives] at hbent
    exact ⟨hbent, hlength.trans (hg.unreached k bent hbent hc)⟩
  · rw [hrun.alternatives]
    exact hb.alternatives

theorem Guarded.sameButPool (hg : Guarded env s) (h : s.SameButPool s') : Guarded env s' := by
  rw [h]
  exact hg.keep (fun k bent hbent hc => ⟨hbent, hg.unreached k bent hbent hc⟩) fun _ _ _ hb =>
    ⟨hb.lineage, hb.stuck, hb.split_le, hb.split_lt, hb.alternatives⟩

theorem call_guarded {op : Op} (hl : Labels env V D) (hreg : Regular env V s) (hg : Guarded env s)
    (hop : op.Receives (fun blob => ∀ tx, parseTransaction blob = some tx →
      V (env.crypto.cnFastHash blob) tx) D fun _ _ => True) :
    Returns (s.call env now op) fun t => Regular env V t ∧ Guarded env t ∧
      (op ≠ .popBlockFromBlockchain → Final env s t) := by
  cases op with
  | handleIncomingTx blob kept =>
    refine Returns.map ⟨fun r hr => ?_⟩
    have hsame := (handleIncomingTx_sameButPool blob kept s).out _ hr
    refine ⟨⟨(handleIncomingTx_sound blob kept hreg.sound).out _ hr, ?_,
      hreg.carried.receive hop hr⟩, hg.sameButPool hsame, fun _ => ?_⟩
    · rw [hsame]
      exact hreg.worked.congr (.refl _) rfl rfl fun _ _ hbent => hbent
    · rw [hsame]
      exact fun _ _ _ => rfl
  | addNewBlock fuel bl =>
    refine Returns.map ⟨fun r hr => ?_⟩
    obtain ⟨hfinal, hguarded⟩ := (addNewBlock_guarded hl fuel hreg hg hop).out _ hr
    exact ⟨hl.regular hreg ((addNewBlock_actions fuel hop hreg.sound).out _ hr), hguarded,
      fun _ => hfinal⟩
  | popBlockFromBlockchain =>
    refine Returns.map ⟨fun r hr => ?_⟩
    exact ⟨hl.regular hreg (.single (.disconnect hr)), hg.pop hl hreg hr, fun hne => absurd rfl hne⟩
  | learnLonghash id longhash =>
    refine Returns.ok_iff.mpr ⟨⟨hreg.sound.learnLonghash id longhash,
      hreg.worked.congr (.refl _) rfl rfl fun _ _ hbent => hbent,
      hreg.carried.congr (fun _ _ hb => Or.inl hb) rfl rfl⟩, ?_, fun _ _ _ _ => rfl⟩
    exact hg.keep (fun k bent hbent hc => ⟨hbent, hg.unreached k bent hbent hc⟩) fun _ _ _ hb =>
      ⟨hb.lineage, hb.stuck, hb.split_le, hb.split_lt, hb.alternatives⟩

theorem run_guarded (hl : Labels env V D) (hreg : Regular env V s) (hg : Guarded env s)
    (hops : ∀ op ∈ ops, op.2.Receives (fun blob => ∀ tx, parseTransaction blob = some tx →
      V (env.crypto.cnFastHash blob) tx) D fun _ _ => True) (hcalm : s.Uninterrupted env ops)
    (h : s.run env ops = .ok s') :
    Regular env V s' ∧ Guarded env s' ∧
      ((∀ op ∈ ops, op.2 ≠ .popBlockFromBlockchain) → Final env s s') := by
  induction ops generalizing s with
  | nil =>
    obtain rfl := Except.ok.inj h
    exact ⟨hreg, hg, fun _ _ _ _ => rfl⟩
  | cons op ops ih =>
    obtain ⟨now, op⟩ := op
    obtain ⟨t, ht, h⟩ := bind_eq_ok_iff.mp h
    obtain ⟨hreg', hg', hfinal⟩ : Regular env V t ∧ Guarded env t ∧
        (op ≠ .popBlockFromBlockchain → Final env s t) := by
      rcases step_cases hcalm.1 ht with hcall | rfl
      · exact (call_guarded hl hreg hg (hops (now, op) (by simp))).out _ hcall
      · exact ⟨hreg, hg, fun _ _ _ _ => rfl⟩
    obtain ⟨hreg'', hg'', hfinal'⟩ :=
      ih hreg' hg' (fun op hmem => hops op (List.mem_cons_of_mem _ hmem)) (hcalm.2 t ht) h
    refine ⟨hreg'', hg'', fun hadds => (hfinal (hadds (now, op) (by simp))).trans
      (hfinal' fun op hmem => hadds op (List.mem_cons_of_mem _ hmem))⟩

variable {genesis : Block} {later : List (UInt64 × Op)}

theorem Initial.guarded (h : s.Initial env) : Guarded env s := by
  obtain ⟨now, genesis, id, taken, l, fee, base, prev, -, happ⟩ := h.appended
  have hnone : ∀ k bent, s.alternativeChainEntries k ≠ some bent := by
    intro k bent hbent
    rw [happ.alternatives] at hbent
    cases hbent
  exact ⟨fun k bent hbent => absurd hbent (hnone k bent), fun k bent hbent => absurd hbent (hnone k bent),
    fun k bent hbent => absurd hbent (hnone k bent)⟩

theorem labels_identified (hfree : IdsApart env.crypto fun id tx =>
      (id, tx) ∈ identified env.crypto genesis ops) :
    Labels env (fun id tx => (id, tx) ∈ identified env.crypto genesis ops)
      fun bl => bl.minerPair env.crypto ∈ identified env.crypto genesis ops :=
  ⟨identified_rehashes, hfree, fun _ hb => hb⟩

/-- Once the main chain has reached a checkpoint, no sequence of received blocks and
transactions changes its blocks up to there, unless the hash of one transaction of the
run is the id of another. -/
theorem checkpoint_final_or_collision (h : s.ReachedBy env genesis ops)
    (hcalm : s.Uninterrupted env later) (hrun : s.run env later = .ok s')
    (hlater : ∀ op ∈ later, op.2 ≠ .popBlockFromBlockchain) {c : Nat}
    (hc : env.checkpoints.find? c ≠ none) (hreached : c < s.entries.length) :
    (s'.entries.take (c + 1) = s.entries.take (c + 1) ∧
      ∀ bent ∈ s.entries.take (c + 1),
        s'.blocksByHash bent.hash = s.blocksByHash bent.hash) ∨
      ∃ p ∈ identified env.crypto genesis (ops ++ later),
        ∃ q ∈ identified env.crypto genesis (ops ++ later),
          p.2 ≠ q.2 ∧ getTransactionHash env.crypto q.2 = some p.1 := by
  by_cases hfree : IdsApart env.crypto fun id tx =>
      (id, tx) ∈ identified env.crypto genesis (ops ++ later)
  · left
    have hl := labels_identified hfree
    obtain ⟨now, id, s₀, hid, hadd, hcalm₀, hrun₀⟩ := h
    have hinit : s₀.Initial env := ⟨now, genesis, id, hid, hadd⟩
    obtain ⟨hreg, hg, -⟩ := run_guarded hl ⟨hinit.sound, hinit.worked, carried_genesis hadd⟩
      hinit.guarded (fun op hop => receives_identified op (List.mem_append_left _ hop)) hcalm₀
      hrun₀
    obtain ⟨-, -, hfinal⟩ :=
      run_guarded hl hreg hg (fun op hop => receives_identified op (List.mem_append_right _ hop))
        hcalm hrun
    refine ⟨hfinal hlater c hc hreached, fun bent hbent => ?_⟩
    obtain ⟨i, hi⟩ := List.mem_iff_getElem?.mp (List.mem_of_mem_take hbent)
    obtain ⟨body, hbody, -⟩ := hreg.sound.chain.bodies i bent hi
    rw [hbody, run_bodiesGrow hreg.sound hcalm hrun _ _ hbody]
  · right
    simp only [IdsApart, not_forall] at hfree
    obtain ⟨id, tx, id', tx', htx, htx', hhash, hne⟩ := hfree
    exact ⟨(id, tx), htx, (id', tx'), htx', hne, hhash⟩

end Runs

def sampleFinalEnv : Env :=
  { sampleEnv with checkpoints := ⟨[(2, sampleId samplePosBlock)], by simp⟩ }

/-- The alternative block arrives before the checkpoint is reached. -/
def sampleFinalOps : List (UInt64 × Op) :=
  [(1000, .addNewBlock 0 samplePowBlock), (1001, .addNewBlock 2 sampleAltBlock),
    (1002, .addNewBlock 0 samplePosBlock)]

def sampleFinal : Storage :=
  (play sampleFinalEnv 1000 sampleGenesis sampleFinalOps).getD Storage.empty

/-- Then the branch grows. -/
def sampleLaterOps : List (UInt64 × Op) := [(1003, .addNewBlock 5 sampleAltPosBlock)]

theorem checkpoint_final_of_sampleFinal :
    (sampleFinal.alternativeChainEntries (sampleId sampleAltBlock)).isSome = true ∧
      ∃ s', sampleFinal.run sampleFinalEnv sampleLaterOps = .ok s' ∧
        s'.entries.take 3 = sampleFinal.entries.take 3 ∧ sampleFinal.entries.length = 3 := by
  have hreached : sampleFinal.ReachedBy sampleFinalEnv sampleGenesis sampleFinalOps :=
    reachedBy_of_play (by decide +kernel)
  obtain ⟨hcalm, hrun⟩ := uninterrupted_of_calls (eq_ok_of_isOk
    (x := sampleFinal.calls sampleFinalEnv sampleLaterOps) Storage.empty (by decide +kernel))
  have hlength : sampleFinal.entries.length = 3 := by decide +kernel
  refine ⟨by decide +kernel, _, hrun, ?_, hlength⟩
  have hfinal := checkpoint_final_or_collision hreached hcalm hrun (by simp [sampleLaterOps]) (c := 2)
    (by decide +kernel) (by omega)
  refine (hfinal.resolve_right ?_).1
  rintro ⟨p, hp, q, hq, hne, hhash⟩
  have hunique : ∀ p ∈ identified sampleCrypto sampleGenesis (sampleFinalOps ++ sampleLaterOps),
      ∀ q ∈ identified sampleCrypto sampleGenesis (sampleFinalOps ++ sampleLaterOps),
        getTransactionHash sampleCrypto q.2 = some p.1 → p.2 = q.2 := by
    decide +kernel
  exact hne (hunique p hp q hq hhash)

/-- The first delegate block of a branch. -/
def sampleForkBlock : Block := sampleSignedBlock 12 201 sampleFirstTop 7 []

/-- Registers delegate 7, who signs it, and comes after a missed turn. -/
def sampleForcedBlock : Block :=
  sampleSignedBlock 13 300 (sampleId sampleForkBlock) 7 [sampleRegistration]

def sampleForcedEnv : Env where
  crypto := sampleCrypto
  config := ⟨false, true, 0, 12, 100⟩
  checkpoints := ⟨[(13, sampleId sampleForcedBlock), (100, nullHash)], by simp⟩

/-- The switch to the checkpoint throws when the missed turn is counted, and its branch stays
in the table of the alternatives. -/
def sampleForcedOps : List (UInt64 × Op) :=
  sampleFirstBlocks.map (fun b => (1000, .addNewBlock 0 b)) ++
    [(1000, .addNewBlock 0 (sampleSignedBlock 12 200 sampleFirstTop 7 [])),
      (1000, .addNewBlock 2 sampleForkBlock),
      (1000, .handleIncomingTx ((serializeTransaction sampleRegistration).getD []) true),
      (1000, .addNewBlock 3 sampleForcedBlock)]

/-- A block on the checkpoint, and two others that take over from it. -/
def sampleOvertakingOps : List (UInt64 × Op) :=
  let next := sampleSignedBlock 14 311 (sampleId sampleForcedBlock) 8 []
  [(1000, .addNewBlock 0 (sampleSignedBlock 14 310 (sampleId sampleForcedBlock) 8 [])),
    (1000, .addNewBlock 4 next),
    (1000, .addNewBlock 5 (sampleSignedBlock 15 330 (sampleId next) 8 []))]

/-- The chain is at the checkpoint and then ends below it. -/
def losesCheckpoint (s : Storage) : Bool :=
  decide ((s.entries[13]?).map (fun bent => bent.hash) = some (sampleId sampleForcedBlock)) &&
    (s.run sampleForcedEnv sampleOvertakingOps).toOption.any fun s' => decide (s'.entries.length = 13)

/-- The later switch pops the checkpoint block, which counts its signer into the table of the
delegates, and cannot connect it again because its registration then finds the delegate there. -/
theorem checkpoint_lost_after_exception : ∃ s₀ s s' : Storage, s₀.Initial sampleForcedEnv ∧
    s₀.run sampleForcedEnv sampleForcedOps = .ok s ∧
    s.run sampleForcedEnv sampleOvertakingOps = .ok s' ∧
    (s.entries[13]?).map (fun bent => bent.hash) = some (sampleId sampleForcedBlock) ∧
    sampleForcedEnv.checkpoints.find? 13 = some (sampleId sampleForcedBlock) ∧
    s'.entries.length = 13 := by
  have hloses : (playOn sampleForcedEnv 1000 sampleGenesis sampleForcedOps).any losesCheckpoint =
      true := by
    decide +kernel
  obtain ⟨s₀, s, hinit, hrun, hs⟩ := exists_run_of_playOn hloses
  simp only [losesCheckpoint, Bool.and_eq_true, decide_eq_true_eq] at hs
  obtain ⟨s', hlater, hlength⟩ := (Option.any_eq_true _ _).mp hs.2
  exact ⟨s₀, s, s', hinit, hrun, eq_ok_of_toOption hlater, hs.1, by decide +kernel,
    of_decide_eq_true hlength⟩

end Storage

end Pebblecoin
