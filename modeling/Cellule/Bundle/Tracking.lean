import Cellule.Bundle.Lane
import Cellule.Bundle.VerificationLaws
import Cellule.Lib.Pointwise

/-!
# Bindings track their captures

A binding tracks frames when its locators stand for them, each is of a capture that the gate
assigned to its writer, and the chain over them leads from its base to its endpoint (`Tracks`). The
frame after the last one of a capture belongs to a later capture, with later commits
(`Covered.commit_lt`), so that a chain may be cut there (`Tracks.cut`).
-/

namespace Cellule

open Except
open VerifyScope (follow)
open List

/-! ## Captures -/

/-- The frame is one of those that were assigned with a capture of the writer. -/
structure Covered (events : List IssuanceEvent) (scope : CellLogScope) (f : VerifiedNodeFrame)
    (c : Capture) : Prop where
  mem : c ∈ capturesOf scope events
  lower : c.ticket.firstSequence ≤ f.scope.nodeSequence
  upper : f.scope.nodeSequence ≤ c.ticket.lastSequence
  firstCommit : f.firstCommitSequence = c.first.firstCommitSequence
  commit : f.scope.commitSequence = c.first.scope.commitSequence

/-- The frame is the last one of its capture. -/
def EndsCapture (events : List IssuanceEvent) (scope : CellLogScope)
    (f : VerifiedNodeFrame) : Prop :=
  ∃ c, Covered events scope f c ∧ f.scope.nodeSequence = c.ticket.lastSequence

/-- The captures of a gate, one after another. -/
structure InOrder (events : List IssuanceEvent) : Prop where
  ordered : ∀ scope, ∀ c ∈ capturesOf scope events, c.Ordered
  precedes : ∀ scope, (capturesOf scope events).Pairwise Capture.Precedes

theorem pairwise_trichotomy {l : List α} (h : l.Pairwise R)
    (ha : a ∈ l) (hb : b ∈ l) : a = b ∨ R a b ∨ R b a := by
  have hsymm : Std.Symm fun a b => a = b ∨ R a b ∨ R b a :=
    ⟨fun _ _ hab => hab.imp Eq.symm Or.symm⟩
  exact (h.imp (S := fun a b => a = b ∨ R a b ∨ R b a)
    fun hab => .inr (.inl hab)).forall_of_forall (fun _ _ => .inl rfl) ha hb

/-- A capture has a frame with each sequence of its ticket. -/
theorem Capture.Ordered.exists_frame {c : Capture} (h : c.Ordered)
    (hlower : c.ticket.firstSequence ≤ n) (hupper : n ≤ c.ticket.lastSequence) :
    ∃ x ∈ c.frames, x.scope.nodeSequence = n := by
  have hmem : n ∈ c.frames.map (·.scope.nodeSequence) := by
    rw [h.sequences, CommitTicket.sequences, mem_range'_1]
    omega
  exact mem_map.1 hmem

section
variable {events : List IssuanceEvent} {scope : CellLogScope} {f f' : VerifiedNodeFrame}
  {c c' : Capture}

/-- After the last frame of a capture only frames with later commits follow. -/
theorem Covered.commit_lt (h : InOrder events) (hf : Covered events scope f c)
    (hend : f.scope.nodeSequence = c.ticket.lastSequence) (hf' : Covered events scope f' c')
    (hlt : f.scope.nodeSequence < f'.scope.nodeSequence) :
    f.scope.commitSequence < f'.scope.commitSequence := by
  obtain ⟨x, hx, hxseq⟩ := (h.ordered scope c hf.mem).exists_frame hf.lower hf.upper
  obtain ⟨x', hx', hxseq'⟩ := (h.ordered scope c' hf'.mem).exists_frame hf'.lower hf'.upper
  rcases pairwise_trichotomy (h.precedes scope) hf.mem hf'.mem with rfl | hbefore | hafter
  · have hupper := hf'.upper
    omega
  · have hcommits := hbefore.commits c.first c.first_mem c'.first c'.first_mem
    rw [← hf.commit, ← hf'.firstCommit] at hcommits
    exact hcommits.trans_le f'.range
  · have hsequences := hafter.sequences x' hx' x hx
    omega

end

/-! ## Locators -/

/-- The locator stands for the frame: the bundle that it names has the bytes of the frame there. -/
def Locates (P : Primitives) (uploads : List Upload) (l : Locator) (f : VerifiedNodeFrame) : Prop :=
  ∃ u ∈ uploads, l.object = some u.head.digest ∧
    l.offset.toNat + l.bytes.toNat ≤ u.body.length ∧
    (u.body.drop l.offset.toNat).take l.bytes.toNat = f.encoded ∧
    ∃ limits, P.inspectNodeFrame f.encoded limits = .ok f

/-- A digest names one bundle. -/
def Named (uploads : List Upload) : Prop :=
  ∀ u ∈ uploads, ∀ v ∈ uploads, u.head.digest = v.head.digest → u = v

section
variable {P : Primitives} {uploads uploads' : List Upload} {l : Locator} {f f' : VerifiedNodeFrame}

theorem Locates.mono (h : Locates P uploads l f) (hsub : ∀ u ∈ uploads, u ∈ uploads') :
    Locates P uploads' l f := by
  obtain ⟨u, hu, hrest⟩ := h
  exact ⟨u, hsub u hu, hrest⟩

/-- A locator stands for one frame. -/
theorem Locates.unique (hnamed : Named uploads) (h : Locates P uploads l f)
    (h' : Locates P uploads l f') : f = f' := by
  obtain ⟨u, hu, hobject, -, hbytes, limits, hinspect⟩ := h
  obtain ⟨u', hu', hobject', -, hbytes', limits', hinspect'⟩ := h'
  obtain rfl := hnamed u hu u' hu' (Option.some.inj (hobject.symm.trans hobject'))
  rw [← hbytes] at hinspect
  rw [← hbytes'] at hinspect'
  exact inspect_unique hinspect hinspect'

/-- Lists of locators stand for one list of frames. -/
theorem forall₂_locates_unique (hnamed : Named uploads) (h : List.Forall₂ (Locates P uploads) ls fs)
    (h' : List.Forall₂ (Locates P uploads) ls fs') : fs = fs' :=
  right_unique_forall₂' (fun _ _ _ h h' => h.unique hnamed h') h h'

end

/-! ## Chains -/

/-- The state of a chain after a frame. -/
def BindingChain.after (f : VerifiedNodeFrame) : BindingChain :=
  ⟨f.segment.position, f.scope.commitSequence, f.scope.nodeSequence, f.firstCommitSequence⟩

/-- The checks of a chain on the next frame. -/
structure BindingChain.Goes (chain : BindingChain) (f : VerifiedNodeFrame) : Prop where
  sequence : chain.sequence < f.scope.nodeSequence
  same : f.scope.commitSequence = chain.commit → f.firstCommitSequence = chain.firstCommit
  next : f.scope.commitSequence ≠ chain.commit → checkedAdd chain.commit 1
    = some f.firstCommitSequence
  txid : checkedAdd chain.position.txid 1 = some f.segment.minTxid
  checksum : chain.position.checksum = f.segment.preChecksum

variable {chain chain' : BindingChain} {f : VerifiedNodeFrame}

theorem BindingChain.accept_eq_ok :
    chain.accept (.fromFrame f) = .ok chain' ↔ chain.Goes f ∧ chain' = .after f := by
  unfold BindingChain.accept
  rw [reject_bind_eq_ok]
  simp only [FrameStep.fromFrame, Bool.or_eq_false_iff, Bool.and_eq_false_iff,
    beq_eq_false_iff_ne, bne_eq_false_iff_eq]
  constructor
  · rintro ⟨⟨⟨⟨⟨hsequence, hsame⟩, hnext⟩, htxid⟩, hchecksum⟩, h⟩
    exact ⟨⟨Nat.lt_of_not_le (of_decide_eq_false hsequence), fun heq =>
      hsame.resolve_left (absurd heq),
      fun hne => hnext.resolve_left hne, htxid, hchecksum⟩, (ok.inj h).symm⟩
  · rintro ⟨⟨hsequence, hsame, hnext, htxid, hchecksum⟩, rfl⟩
    refine ⟨⟨⟨⟨⟨decide_eq_false (Nat.not_le_of_lt hsequence), ?_⟩, ?_⟩, htxid⟩, hchecksum⟩, rfl⟩
    · exact (em (f.scope.commitSequence = chain.commit)).elim (fun h => .inr (hsame h)) .inl
    · exact (em (f.scope.commitSequence = chain.commit)).elim .inl fun h => .inr (hnext h)

theorem follow_cons_eq_ok :
    follow chain (f :: fs) = .ok chain' ↔ chain.Goes f ∧ follow (.after f) fs = .ok chain' := by
  unfold follow
  rw [foldlM_cons, bind_eq_ok]
  simp only [BindingChain.accept_eq_ok, and_assoc, exists_and_left, exists_eq_left]

/-- A chain over frames ends after the last of them. -/
theorem follow_concat_eq_ok (h : follow chain (fs ++ [f]) = .ok chain') : chain' = .after f := by
  rw [VerifyScope.follow_append] at h
  obtain ⟨mid, -, h⟩ := bind_eq_ok.1 h
  obtain ⟨-, h⟩ := follow_cons_eq_ok.1 h
  exact (ok.inj h).symm

/-! ## Tracking -/

/-- The locators of a binding stand for frames by `R`, and the chain over these frames leads from
the base of the binding to its endpoint. -/
structure Tracks (R : Locator → VerifiedNodeFrame → Prop) (events : List IssuanceEvent)
    (b : Binding) (frames : List VerifiedNodeFrame) (start chain : BindingChain) : Prop where
  points : List.Forall₂ R b.locators frames
  covered : ∀ f ∈ frames, ∃ c, Covered events b.scope f c
  new : BindingChain.new b = .ok start
  follows : follow start frames = .ok chain
  position : chain.position = b.selectedPosition
  commit : chain.commit = b.selectedCommit
  firstCommit : chain.firstCommit = b.firstCommit
  before : chain.sequence ≤ b.selectedSequence

section
variable {R R' : Locator → VerifiedNodeFrame → Prop} {events : List IssuanceEvent} {b b' : Binding}
  {frames : List VerifiedNodeFrame} {start chain : BindingChain} {f : VerifiedNodeFrame}

theorem BindingChain.new_eq_ok :
    BindingChain.new b = .ok start ↔ ∃ base, b.control.ltxRoot = some base ∧
      start = ⟨base.position, base.commitSequence, 0, base.commitSequence⟩ := by
  unfold BindingChain.new VerifyScope.baseOf
  rw [bind_eq_ok]
  simp only [okOr_eq_ok]
  constructor
  · rintro ⟨base, hbase, h⟩
    exact ⟨base, hbase, (ok.inj h).symm⟩
  · rintro ⟨base, hbase, rfl⟩
    exact ⟨base, hbase, rfl⟩

/-- Tracking sees the writer, the base, the locators and the endpoint of a binding. -/
theorem Tracks.congr (h : Tracks R events b frames start chain) (hscope : b'.scope = b.scope)
    (hroot : b'.control.ltxRoot = b.control.ltxRoot) (hlocators : b'.locators = b.locators)
    (hfirst : b'.firstCommit = b.firstCommit) (hend : b'.endpoint = b.endpoint) :
    Tracks R events b' frames start chain := by
  obtain ⟨hsequence, hrest⟩ := Prod.mk.inj hend
  obtain ⟨hcommit, hposition⟩ := Prod.mk.inj hrest
  refine ⟨hlocators ▸ h.points, hscope ▸ h.covered, ?_, h.follows, hposition ▸ h.position,
    hcommit ▸ h.commit, hfirst ▸ h.firstCommit, hsequence ▸ h.before⟩
  rw [BindingChain.new_eq_ok, hroot]
  exact BindingChain.new_eq_ok.1 h.new

theorem Tracks.imp (h : Tracks R events b frames start chain) (himp : ∀ l f, R l f → R' l f) :
    Tracks R' events b frames start chain :=
  { h with points := h.points.imp himp }

/-- The chain ends after the last frame. -/
theorem Tracks.chain_eq (h : Tracks R events b (frames ++ [f]) start chain) : chain = .after f :=
  follow_concat_eq_ok h.follows

/-- What `Binding.append` checks and does. -/
theorem Binding.append_eq_ok {hash : Hash} (h : b.append hash f = .ok b') :
    (b.phase = .opened ∨ b.phase = .closing) ∧
      (f.scope.commitSequence = b.selectedCommit → f.firstCommitSequence = b.firstCommit) ∧
      (f.scope.commitSequence ≠ b.selectedCommit →
        checkedAdd b.selectedCommit 1 = some f.firstCommitSequence) ∧
      checkedAdd b.selectedPosition.txid 1 = some f.segment.minTxid ∧
      b.selectedPosition.checksum = f.segment.preChecksum ∧
      b' = { b with
        firstCommit := f.firstCommitSequence
        selectedCommit := f.scope.commitSequence
        selectedPosition := f.segment.position
        selectedSequence := f.scope.nodeSequence
        locators := b.locators ++ [⟨none, 0, UInt64.ofNat f.encoded.length, f.digest hash⟩] } := by
  obtain ⟨hphase, h⟩ := reject_bind_eq_ok.1 h
  obtain ⟨hrange, h⟩ := reject_bind_eq_ok.1 h
  simp only [Bool.or_eq_false_iff, Bool.not_eq_false', Bool.or_eq_true, beq_iff_eq] at hphase
  simp only [Bool.or_eq_false_iff, Bool.and_eq_false_iff, beq_eq_false_iff_ne, bne_eq_false_iff_eq,
    Bool.not_eq_false', beq_iff_eq] at hrange
  obtain ⟨⟨⟨hsame, hnext⟩, htxid⟩, hchecksum⟩ := hrange
  exact ⟨hphase.1.1, fun heq => (hsame.resolve_left (absurd heq.symm)).symm,
    fun hne => hnext.resolve_left fun heq => hne heq.symm, htxid, hchecksum, (ok.inj h).symm⟩

/-- A binding tracks a frame that is put at its end. -/
theorem Tracks.append {hash : Hash} (h : Tracks R events b frames start chain)
    (happend : b.append hash f = .ok b') (hafter : b.selectedSequence < f.scope.nodeSequence)
    (hcovered : ∃ c, Covered events b.scope f c)
    (hpoints : ∀ bytes, R ⟨none, 0, bytes, f.digest hash⟩ f) :
    Tracks R events b' (frames ++ [f]) start (.after f) := by
  obtain ⟨-, hsame, hnext, htxid, hchecksum, rfl⟩ := Binding.append_eq_ok happend
  have hgoes : chain.Goes f := by
    refine ⟨h.before.trans_lt hafter, ?_, ?_, ?_, ?_⟩
    · rw [h.commit, h.firstCommit]
      exact hsame
    · rw [h.commit]
      exact hnext
    · rw [h.position]
      exact htxid
    · rw [h.position]
      exact hchecksum
  refine ⟨rel_append h.points (.cons (hpoints _) .nil), ?_, h.new, ?_, rfl, rfl, rfl, le_rfl⟩
  · exact forall_mem_append.2 ⟨h.covered, forall_mem_singleton.2 hcovered⟩
  · rw [VerifyScope.follow_append, h.follows, ok_bind]
    exact follow_cons_eq_ok.2 ⟨hgoes, rfl⟩

/-- A chain may be cut after the last frame of a capture, at a root that stands there. -/
theorem Tracks.cut (horder : InOrder events)
    (h : Tracks R events b ((done ++ [f]) ++ rest) start chain)
    (hend : EndsCapture events b.scope f)
    (hroot : b'.control.ltxRoot = some root) (hposition : root.position = f.segment.position)
    (hcommit : root.commitSequence = f.scope.commitSequence) (hscope : b'.scope = b.scope)
    (hlocators : b'.locators = b.locators.drop (done.length + 1))
    (hendpoint : b'.endpoint = b.endpoint)
    (hfirst : b'.firstCommit = if rest = [] then b.selectedCommit else b.firstCommit) :
    ∃ start' chain', Tracks R events b' rest start' chain' := by
  obtain ⟨hsequence, hend'⟩ := Prod.mk.inj hendpoint
  obtain ⟨hselected, hpos⟩ := Prod.mk.inj hend'
  have hfollows := h.follows
  rw [VerifyScope.follow_append] at hfollows
  obtain ⟨mid, hmid, hrest⟩ := bind_eq_ok.1 hfollows
  obtain rfl := follow_concat_eq_ok hmid
  have hpoints : List.Forall₂ R b'.locators rest := by
    have hdrop := forall₂_drop (done.length + 1) h.points
    rw [← hlocators, drop_left' (by rw [length_append, length_singleton])] at hdrop
    exact hdrop
  have hcovered : ∀ x ∈ rest, ∃ c, Covered events b'.scope x c := by
    rw [hscope]
    exact fun x hx => h.covered x (mem_append_right _ hx)
  let start' : BindingChain := ⟨root.position, root.commitSequence, 0, root.commitSequence⟩
  have hnew : BindingChain.new b' = .ok start' := BindingChain.new_eq_ok.2 ⟨root, hroot, rfl⟩
  cases rest with
  | nil =>
    obtain rfl := ok.inj hrest
    refine ⟨start', start', hpoints, hcovered, hnew, rfl, ?_, ?_, ?_, Nat.zero_le _⟩
    · rw [hpos, ← h.position]
      exact hposition
    · rw [hselected, ← h.commit]
      exact hcommit
    · rw [hfirst, if_pos rfl, ← h.commit]
      exact hcommit
  | cons f' rest =>
    obtain ⟨hgoes, hrest⟩ := follow_cons_eq_ok.1 hrest
    obtain ⟨c, hf, hlast⟩ := hend
    obtain ⟨c', hf'⟩ := h.covered f' (mem_append_right _ mem_cons_self)
    -- the next frame is of a later capture, so that it does not go on with the commits of this one
    have hlater := hf.commit_lt horder hlast hf' hgoes.sequence
    have hgoes' : start'.Goes f' := by
      refine ⟨Nat.zero_lt_of_lt hgoes.sequence, fun hsame => ?_, fun _ => ?_, ?_, ?_⟩
      · have hsame' : f'.scope.commitSequence = root.commitSequence := hsame
        omega
      · show checkedAdd root.commitSequence 1 = _
        rw [hcommit]
        exact hgoes.next hlater.ne'
      · show checkedAdd root.position.txid 1 = _
        rw [hposition]
        exact hgoes.txid
      · show root.position.checksum = _
        rw [hposition]
        exact hgoes.checksum
    refine ⟨start', chain, hpoints, hcovered, hnew, follow_cons_eq_ok.2 ⟨hgoes', hrest⟩,
      ?_, ?_, ?_, ?_⟩
    · exact hpos ▸ h.position
    · exact hselected ▸ h.commit
    · rw [hfirst, if_neg (cons_ne_nil _ _)]
      exact h.firstCommit
    · exact hsequence ▸ h.before

/-- A binding may move to another root that stands where its base does. -/
theorem Tracks.rebase (h : Tracks R events b frames start chain)
    (hbase : b.control.ltxRoot = some base) (hroot : b'.control.ltxRoot = some root)
    (hposition : base.position = root.position)
    (hcommit : base.commitSequence = root.commitSequence)
    (hscope : b'.scope = b.scope) (hlocators : b'.locators = b.locators)
    (hendpoint : b'.endpoint = b.endpoint)
    (hfirst : b'.firstCommit = if b.locators.isEmpty then b.selectedCommit else b.firstCommit) :
    Tracks R events b' frames start chain := by
  obtain ⟨base', hbase', hstart⟩ := BindingChain.new_eq_ok.1 h.new
  obtain rfl := Option.some.inj (hbase.symm.trans hbase')
  obtain ⟨hsequence, hend'⟩ := Prod.mk.inj hendpoint
  obtain ⟨hselected, hpos⟩ := Prod.mk.inj hend'
  refine ⟨hlocators ▸ h.points, hscope ▸ h.covered, BindingChain.new_eq_ok.2 ⟨root, hroot, ?_⟩,
    h.follows, hpos ▸ h.position, hselected ▸ h.commit, ?_, hsequence ▸ h.before⟩
  · rw [hstart, hposition, hcommit]
  · rw [hfirst]
    split
    · next hempty =>
      -- without captures the chain is where it starts, which has one commit
      have hframes := h.points
      rw [List.isEmpty_iff.1 hempty, forall₂_nil_left_iff] at hframes
      have hfollows := h.follows
      rw [hframes] at hfollows
      obtain rfl := ok.inj hfollows
      rw [← h.commit, hstart]
    · exact h.firstCommit

end

end Cellule
