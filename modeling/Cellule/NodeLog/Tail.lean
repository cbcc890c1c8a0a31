import Cellule.Lib.Tiling
import Cellule.NodeLog.Recovery

/-!
# What a Cell's tail is

The purpose of a recovery: the frames of one Cell that its published base does not cover, in the
order of the node log, follow one another physically and in the commands they carry (`CellTail`). A
tail grows by one frame at its end (`CellTail.snoc`).
-/

namespace Cellule

open Tiling List Option

variable {base : RecoveryBase} {frames : List VerifiedNodeFrame} {f : VerifiedNodeFrame}

/-- The commands a frame carries. -/
def VerifiedNodeFrame.commands (f : VerifiedNodeFrame) : Nat × Nat :=
  (f.firstCommitSequence, f.scope.commitSequence)

/-- The frame is of the exact Cell scope of the base. -/
def RecoveryBase.Owns (base : RecoveryBase) (f : VerifiedNodeFrame) : Prop :=
  f.scope.application = base.application ∧ f.scope.cell = base.root.cell
    ∧ f.scope.incarnation = base.root.incarnation ∧ f.scope.cellEpoch = base.cellEpoch

/-- Identities with the same bytes are equal. -/
theorem FixedId.octets_inj {a b : FixedId n} : a.octets = b.octets ↔ a = b := by
  refine ⟨fun h => Subtype.ext ?_, congrArg _⟩
  exact map_injective_iff.2 (fun _ _ => UInt8.toNat_inj.1) h

/-- Keys are equal when the scopes are. -/
theorem RecoveryBase.key_eq_iff : f.key = base.key ↔ base.Owns f := by
  simp only [VerifiedNodeFrame.key, RecoveryBase.key, recoveryKey, EmbeddingLike.apply_eq_iff_eq,
    Prod.mk.injEq, FixedId.octets_inj, RecoveryBase.Owns]

/-- The frames of the base's Cell that the base does not cover. -/
def RecoveryBase.uncovered (base : RecoveryBase) (frames : List VerifiedNodeFrame) :
    List VerifiedNodeFrame :=
  frames.filter fun f =>
    decide (f.key = base.key) && decide (base.root.commitSequence < f.scope.commitSequence)

/-- The frames of a Cell beyond its base. -/
theorem RecoveryBase.mem_uncovered :
    f ∈ base.uncovered frames
      ↔ f ∈ frames ∧ f.key = base.key ∧ base.root.commitSequence < f.scope.commitSequence := by
  simp [RecoveryBase.uncovered]

/-- Where the frames end: the position of the last one, or of the base. -/
def endPosition (base : RecoveryBase) (frames : List VerifiedNodeFrame) : Position :=
  (frames.getLast?.map (·.segment.position)).getD base.root.position

/-- Frames that extend a base without gap, physically and in their commands. -/
structure CellTail (base : RecoveryBase) (frames : List VerifiedNodeFrame) : Prop where
  increasing : frames.Pairwise fun f g => f.scope.nodeSequence < g.scope.nodeSequence
  physical : base.root.position.ChainsTo (frames.map (·.segment)) (endPosition base frames)
  commands : (frames.map (·.commands)).IsChain Continues
  start : ∀ f ∈ frames.head?, f.firstCommitSequence = base.root.commitSequence + 1

/-- No frames are a tail. -/
theorem CellTail.nil : CellTail base [] :=
  ⟨.nil, rfl, .nil, nofun⟩

/-- A frame that follows the end of a tail extends it. -/
theorem CellTail.snoc (h : CellTail base frames)
    (hsequence : ∀ g ∈ frames.getLast?, g.scope.nodeSequence < f.scope.nodeSequence)
    (htxid : f.segment.minTxid = (endPosition base frames).txid + 1)
    (hpre : f.segment.preChecksum = (endPosition base frames).checksum)
    (hcommands : ∀ g ∈ frames.getLast?, Continues g.commands f.commands)
    (hstart : frames = [] → f.firstCommitSequence = base.root.commitSequence + 1) :
    CellTail base (frames ++ [f]) := by
  refine ⟨?_, ?_, ?_, ?_⟩
  · refine pairwise_append.2 ⟨h.increasing, pairwise_singleton _ _, ?_⟩
    intro g hg g' hg'
    rw [mem_singleton.1 hg']
    -- the last frame has the largest sequence so far
    obtain ⟨init, last, rfl⟩ : ∃ init last, frames = init ++ [last] := by
      rcases eq_nil_or_concat frames with rfl | ⟨init, last, rfl⟩
      · cases hg
      · exact ⟨init, last, concat_eq_append⟩
    have hlast := hsequence last (by simp)
    exact forall_mem_append.2 ⟨fun g hg =>
      ((pairwise_append.1 h.increasing).2.2 g hg last (by simp)).trans hlast,
      forall_mem_singleton.2 hlast⟩ g hg
  · have hend : endPosition base (frames ++ [f]) = f.segment.position := by simp [endPosition]
    rw [map_append, hend]
    exact h.physical.snoc htxid hpre
  · rw [map_append, isChain_append]
    refine ⟨h.commands, isChain_singleton _, ?_⟩
    intro x hx y hy
    rw [getLast?_map, mem_def, map_eq_some_iff] at hx
    obtain ⟨g, hg, rfl⟩ := hx
    rw [map_singleton, head?_cons, mem_def, some.injEq] at hy
    rw [← hy]
    exact hcommands g hg
  · intro g hg
    cases frames with
    | nil =>
      rw [nil_append, head?_cons, mem_def, some.injEq] at hg
      rw [← hg]
      exact hstart rfl
    | cons x xs => exact h.start g hg

/-- The commands of a tail tile what lies between its base and its last command. -/
theorem CellTail.tiles (h : CellTail base frames) (hlast : frames.getLast? = some last) :
    Tiles (base.root.commitSequence + 1) last.scope.commitSequence (frames.map (·.commands)) := by
  cases frames with
  | nil => cases hlast
  | cons x xs =>
    have hrange : ∀ s ∈ (x :: xs).map (·.commands), s.1 ≤ s.2 := by
      intro s hs
      obtain ⟨g, -, rfl⟩ := mem_map.1 hs
      exact g.range
    have htiles := (tiles_of_isChain h.commands hrange).1
    have hend : ((xs.map (·.commands)).getLastD x.commands).2 = last.scope.commitSequence := by
      rw [getLast?_cons, some.injEq] at hlast
      rw [← hlast]
      cases xs using List.reverseRecOn with
      | nil => rfl
      | append_singleton init g _ => simp [VerifiedNodeFrame.commands]
    rw [hend] at htiles
    rw [← h.start x (by simp)]
    exact htiles

end Cellule
