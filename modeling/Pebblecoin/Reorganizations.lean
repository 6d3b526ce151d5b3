import Pebblecoin.ChainSupplement
import Pebblecoin.CheckpointFinality

/-!
What a reorganization does to the ids of the main chain and to the tables of blocks
beside it.
-/

namespace Pebblecoin

open Containers Control

variable {ids : List Hash} {bs : List Block} {bl : Block} {id : Hash}

namespace Storage

variable {env : Env} {now : UInt64} {s s' s'' : Storage}

/-- The tables of blocks beside the main chain are the same. -/
structure SameShelves (s s' : Storage) : Prop where
  bodies : s'.blocksByHash = s.blocksByHash
  alternatives : s'.alternativeChainEntries = s.alternativeChainEntries
  invalid : s'.invalidBlockEntries = s.invalidBlockEntries

theorem SameShelves.refl (s : Storage) : SameShelves s s := ⟨rfl, rfl, rfl⟩

theorem SameShelves.trans (h : SameShelves s s') (h' : SameShelves s' s'') : SameShelves s s'' :=
  ⟨h'.bodies.trans h.bodies, h'.alternatives.trans h.alternatives, h'.invalid.trans h.invalid⟩

/-- The tables of blocks beside the main chain are the same, but these ids may have become
invalid. -/
structure ShelvesBut (ids : List Hash) (s s' : Storage) : Prop where
  bodies : s'.blocksByHash = s.blocksByHash
  alternatives : s'.alternativeChainEntries = s.alternativeChainEntries
  invalid : ∀ k, k ∉ ids → s'.invalidBlockEntries k = s.invalidBlockEntries k

theorem ShelvesBut.trans (h : ShelvesBut ids s s') (h' : ShelvesBut ids s' s'') :
    ShelvesBut ids s s'' :=
  ⟨h'.bodies.trans h.bodies, h'.alternatives.trans h.alternatives,
    fun k hk => (h'.invalid k hk).trans (h.invalid k hk)⟩

/-- The blocks are stored under the ids. -/
def Bodies (ids : List Hash) (bs : List Block) (s : Storage) : Prop :=
  List.Forall₂ (fun id b => s.blocksByHash id = some b) ids bs

theorem Bodies.same (h : Bodies ids bs s) (hsame : SameShelves s s') : Bodies ids bs s' := by
  rw [Bodies, hsame.bodies]
  exact h

theorem Bodies.stored (h : Bodies ids bs s) (hs : s.Sound env) : StoredBlocks env bs s := by
  induction h with
  | nil => exact fun b hb => absurd hb List.not_mem_nil
  | cons hbody _ ih =>
    intro c hc
    rcases List.mem_cons.mp hc with rfl | hc
    · exact ⟨_, hs.hashes _ _ hbody, hbody⟩
    · exact ih c hc

/-- The block `id` of a branch is refused, with those above it in `rest`; of the blocks
that were popped before some may have become invalid as well. -/
structure Refused (popped : List Hash) (id : Hash) (rest : List Hash) (s s' : Storage) : Prop where
  bodies : s'.blocksByHash = s.blocksByHash
  alternatives : ∀ k, s'.alternativeChainEntries k =
    if k ∈ id :: rest then none else s.alternativeChainEntries k
  marked : (s'.invalidBlockEntries id).isSome = true
  invalid : ∀ k, (s'.invalidBlockEntries k).isSome = true →
    k = id ∨ k ∈ popped ∨ (s.invalidBlockEntries k).isSome = true

theorem Refused.of_same {popped rest : List Hash} (h : Refused popped id rest s' s'')
    (hsame : SameShelves s s') : Refused popped id rest s s'' := by
  refine ⟨h.bodies.trans hsame.bodies, fun k => ?_, h.marked, fun k hk => ?_⟩
  · rw [h.alternatives, hsame.alternatives]
  · have := h.invalid k hk
    rwa [hsame.invalid] at this

end Storage

end Pebblecoin
