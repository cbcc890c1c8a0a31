import Cellule.Ltx.BundleParity
import Cellule.NodeLog.Tail

/-!
# The streaming recovery builds the tails

After any accepted prefixes and witness frames, each Cell's builder stands for the frames of that
Cell that its base does not cover (`CellBuilder.Holds`), although it keeps only where they end.
`append_inv` is the step lemma, `seed_fed` and `push_fed` are the run lemmas.
-/

namespace Cellule

open Except Tiling List OrderedMap Option

variable {B : BundleFormat} {limits : Limits} {base : RecoveryBase}
  {frames : List VerifiedNodeFrame} {f : VerifiedNodeFrame}

/-- A value comes through. -/
theorem ofLtx_eq_ok : ofLtx x = .ok a ↔ x = .ok a := by
  cases x <;> simp [ofLtx]

/-- What a passed check of a frame against its base says. -/
theorem checkBase_ok (h : checkBase base f = .ok covered) :
    covered = decide (f.scope.commitSequence ≤ base.root.commitSequence)
      ∧ (covered = false → base.root.commitSequence < f.firstCommitSequence) := by
  simp only [checkBase, reject_bind_eq_ok, pure, Except.pure, ok.injEq] at h
  obtain ⟨hsplit, -, rfl⟩ := h
  refine ⟨rfl, fun hc => ?_⟩
  simp only [hc, Bool.not_false, Bool.true_and, decide_eq_false_iff_not] at hsplit
  exact not_le.1 hsplit

/-- A command range that continues another one, as the source decides it. -/
theorem rangeContinues_continues (h : rangeContinues first last nextFirst nextLast = true) :
    Continues (first, last) (nextFirst, nextLast) := by
  simp only [rangeContinues, Bool.or_eq_true, Bool.and_eq_true, beq_iff_eq] at h
  rcases h with ⟨rfl, rfl⟩ | h
  · exact Or.inl rfl
  · exact Or.inr (checkedAdd_eq_some.1 h).2

/-! ## One Cell -/

/-- The builder of a Cell stands for the frames appended to it. A builder that was just opened
stands for none, and its end is the base. -/
structure CellBuilder.Holds (B : BundleFormat) (limits : Limits) (base : RecoveryBase)
    (frames : List VerifiedNodeFrame) (cell : CellBuilder) : Prop where
  base_eq : cell.base = base
  wrote : cell.bundle.Wrote B (frames.map (entryOf base))
  limits_eq : cell.bundle.limits = limits
  limits_ok : limits.validate = .ok limits
  tail : CellTail base frames
  first : ∀ g ∈ frames.head?, cell.firstNodeSequence = g.scope.nodeSequence
  sequence : cell.lastNodeSequence = (frames.getLast?.map (·.scope.nodeSequence)).getD 0
  commands : (cell.lastFirstCommitSequence, cell.lastCommitSequence)
    = (frames.getLast?.map (·.commands)).getD (base.root.commitSequence, base.root.commitSequence)
  position : cell.finalPosition = endPosition base frames

namespace StreamingRecovery

variable {r r' : StreamingRecovery} {cell : CellBuilder} {seeded : Bool}

/-- A builder that is opened holds nothing. -/
theorem openCell_ok (h : r.openCell base f seeded = .ok (cell, r')) :
    cell.Holds B r.limits base [] ∧ cell.firstNodeSequence = f.scope.nodeSequence
      ∧ f.firstCommitSequence = base.root.commitSequence + 1 ∧ ∃ disk, r' = { r with disk } := by
  simp only [openCell, reject_bind_eq_ok, bne_eq_false_iff_eq] at h
  obtain ⟨hnext, h⟩ := h
  obtain ⟨disk, -, h⟩ := bind_eq_ok.1 h
  obtain ⟨bundle, hbundle, h⟩ := bind_eq_ok.1 h
  cases h
  obtain ⟨hwrote, hvalid, hlimits⟩ := BundleBuilder.wrote_newTemp (B := B) (ofLtx_eq_ok.1 hbundle)
  refine ⟨⟨rfl, hwrote, hlimits, hvalid, .nil, fun _ h => (by cases h), rfl, rfl, rfl⟩, rfl,
    ?_, disk, rfl⟩
  exact (checkedAdd_eq_some.1 hnext).2

/-- What a frame that extends a Cell's tail leaves. -/
theorem extend_ok (hcell : cell.Holds B limits base frames)
    (hopen : frames = [] → cell.firstNodeSequence = f.scope.nodeSequence
      ∧ f.firstCommitSequence = base.root.commitSequence + 1)
    (h : extend B r base cell f seeded = .ok r') :
    ∃ cell' disk, cell'.Holds B limits base (frames ++ [f])
      ∧ r' = { r with disk, grouped := r.grouped.insert f.key cell' } := by
  simp only [extend, reject_bind_eq_ok, Bool.or_eq_false_iff, decide_eq_false_iff_not,
    Bool.not_eq_false', bne_eq_false_iff_eq] at h
  obtain ⟨⟨⟨⟨hsequence, hrange⟩, htxid⟩, hpre⟩, h⟩ := h
  obtain ⟨⟨reservation, disk⟩, -, h⟩ := bind_eq_ok.1 h
  obtain ⟨bundle, hbundle, h⟩ := bind_eq_ok.1 h
  cases h
  obtain ⟨hwrote, hlimits⟩ := hcell.wrote.push (ofLtx_eq_ok.1 hbundle)
  have hcontinues := rangeContinues_continues hrange
  rw [hcell.commands] at hcontinues
  rw [hcell.position] at htxid hpre
  rw [hcell.sequence] at hsequence
  refine ⟨_, disk, ?_, rfl⟩
  refine ⟨hcell.base_eq, ?_, hlimits.trans hcell.limits_eq, hcell.limits_ok, ?_, ?_, ?_, ?_, ?_⟩
  · rw [map_append]
    exact hwrote
  · refine hcell.tail.snoc ?_ (checkedAdd_eq_some.1 htxid).2 hpre.symm ?_ fun he => (hopen he).2
    · intro g hg
      rw [mem_def] at hg
      simpa [hg] using hsequence
    · intro g hg
      rw [mem_def] at hg
      rw [hg] at hcontinues
      exact hcontinues
  · intro g hg
    cases frames with
    | nil =>
      rw [nil_append, head?_cons, mem_def, some.injEq] at hg
      rw [← hg]
      exact (hopen rfl).1
    | cons x xs => exact hcell.first g hg
  · simp
  · simp [VerifiedNodeFrame.commands]
  · simp [endPosition]

/-! ## All Cells -/

/-- The state stands for the frames appended so far: every base's builder holds the frames that the
base does not cover, and every frame was checked. -/
structure Inv (B : BundleFormat) (start : StreamingRecovery) (frames : List VerifiedNodeFrame)
    (r : StreamingRecovery) : Prop where
  bases_eq : r.bases = start.bases
  scope_eq : r.leader = start.leader ∧ r.epoch = start.epoch ∧ r.limits = start.limits
  cells : ∀ base cell, start.bases.get? base.key = some base →
    r.grouped.get? base.key = some cell →
      cell.Holds B start.limits base (base.uncovered frames) ∧ base.uncovered frames ≠ []
  no_cell : ∀ base, start.bases.get? base.key = some base → r.grouped.get? base.key = none →
    base.uncovered frames = []
  based : ∀ key cell, r.grouped.get? key = some cell → ∃ base, start.bases.get? key = some base
  checked : ∀ f ∈ frames, f.scope.leaderSession = start.leader ∧ f.scope.logEpoch = start.epoch
    ∧ ∃ base, start.bases.get? f.key = some base ∧ ∃ covered, checkBase base f = .ok covered

/-- Every base is found under its own key. -/
def Keyed (bases : OrderedMap RecoveryKey RecoveryBase) : Prop :=
  ∀ key base, bases.get? key = some base → base.key = key

/-- A frame beyond the base is added. -/
theorem uncovered_append_of_mem (hkey : f.key = base.key)
    (hcommit : base.root.commitSequence < f.scope.commitSequence) :
    base.uncovered (frames ++ [f]) = base.uncovered frames ++ [f] := by
  simp [RecoveryBase.uncovered, hkey, hcommit]

/-- Other frames are not added. -/
theorem uncovered_append_of_not_mem
    (h : f.key = base.key → f.scope.commitSequence ≤ base.root.commitSequence) :
    base.uncovered (frames ++ [f]) = base.uncovered frames := by
  have hf : (decide (f.key = base.key)
      && decide (base.root.commitSequence < f.scope.commitSequence)) = false := by
    rw [Bool.and_eq_false_iff, decide_eq_false_iff_not, decide_eq_false_iff_not]
    by_cases hkey : f.key = base.key
    · exact Or.inr (not_lt.2 (h hkey))
    · exact Or.inl hkey
  simp [RecoveryBase.uncovered, hf]

variable {start : StreamingRecovery}

/-- A frame that its base covers changes nothing. -/
theorem Inv.covered (h : Inv B start frames r)
    (hleader : f.scope.leaderSession = start.leader) (hepoch : f.scope.logEpoch = start.epoch)
    (hbase : start.bases.get? f.key = some base) (hcheck : checkBase base f = .ok true) :
    Inv B start (frames ++ [f]) r := by
  have hcommit : f.scope.commitSequence ≤ base.root.commitSequence :=
    of_decide_eq_true (checkBase_ok hcheck).1.symm
  have hsame : ∀ b, start.bases.get? b.key = some b →
      b.uncovered (frames ++ [f]) = b.uncovered frames := by
    intro b hb
    refine uncovered_append_of_not_mem fun hkey => ?_
    rw [← hkey, hbase, some.injEq] at hb
    exact hb ▸ hcommit
  refine ⟨h.bases_eq, h.scope_eq, ?_, ?_, h.based, ?_⟩
  · intro b cell hb hcell
    rw [hsame b hb]
    exact h.cells b cell hb hcell
  · intro b hb hnone
    rw [hsame b hb]
    exact h.no_cell b hb hnone
  · exact forall_mem_append.2 ⟨h.checked,
      forall_mem_singleton.2 ⟨hleader, hepoch, base, hbase, true, hcheck⟩⟩

/-- A frame that its base does not cover extends the builder of its Cell. -/
theorem Inv.uncovered (h : Inv B start frames r) (hkeyed : Keyed start.bases)
    (hleader : f.scope.leaderSession = start.leader) (hepoch : f.scope.logEpoch = start.epoch)
    (hbase : start.bases.get? f.key = some base) (hcheck : checkBase base f = .ok false)
    (hcell : cell.Holds B start.limits base (base.uncovered frames ++ [f])) (disk) :
    Inv B start (frames ++ [f]) { r with disk, grouped := r.grouped.insert f.key cell } := by
  have hcommit : base.root.commitSequence < f.scope.commitSequence :=
    not_le.1 (of_decide_eq_false (checkBase_ok hcheck).1.symm)
  have hkey : base.key = f.key := hkeyed f.key base hbase
  have hself : base.uncovered (frames ++ [f]) = base.uncovered frames ++ [f] :=
    uncovered_append_of_mem hkey.symm hcommit
  have hother : ∀ b : RecoveryBase, b.key ≠ f.key → b.uncovered (frames ++ [f])
    = b.uncovered frames :=
    fun b hb => uncovered_append_of_not_mem fun hkey => absurd hkey.symm hb
  refine ⟨h.bases_eq, h.scope_eq, ?_, ?_, ?_, ?_⟩
  · intro b c hb hc
    rcases eq_or_ne b.key f.key with heq | hne
    · rw [heq, hbase, some.injEq] at hb
      rw [heq, get?_insert_self, some.injEq] at hc
      rw [← hb, ← hc, hself]
      exact ⟨hcell, by simp⟩
    · rw [get?_insert_of_ne _ hne] at hc
      rw [hother b hne]
      exact h.cells b c hb hc
  · intro b hb hnone
    rcases eq_or_ne b.key f.key with heq | hne
    · rw [heq, get?_insert_self] at hnone
      cases hnone
    · rw [get?_insert_of_ne _ hne] at hnone
      rw [hother b hne]
      exact h.no_cell b hb hnone
  · intro key c hc
    rcases eq_or_ne key f.key with rfl | hne
    · exact ⟨base, hbase⟩
    · rw [get?_insert_of_ne _ hne] at hc
      exact h.based key c hc
  · exact forall_mem_append.2 ⟨h.checked,
      forall_mem_singleton.2 ⟨hleader, hepoch, base, hbase, false, hcheck⟩⟩

/-- One appended frame. -/
theorem append_inv (h : Inv B start frames r) (hkeyed : Keyed start.bases)
    (hok : append B r f seeded = .ok r') :
    Inv B start (frames ++ [f]) r' ∧ r'.prefixDigests = r.prefixDigests
      ∧ r'.previous = r.previous := by
  rw [append, reject_bind_eq_ok, Bool.or_eq_false_iff, bne_eq_false_iff_eq,
    bne_eq_false_iff_eq, h.bases_eq, h.scope_eq.1, h.scope_eq.2.1] at hok
  obtain ⟨⟨hleader, hepoch⟩, hok⟩ := hok
  cases hbase : start.bases.get? f.key with
  | none => simp [hbase] at hok
  | some base =>
    have hkey : base.key = f.key := hkeyed f.key base hbase
    simp only [hbase] at hok
    obtain ⟨covered, hcheck, hok⟩ := bind_eq_ok.1 hok
    cases covered with
    | true =>
      rw [if_pos rfl, reject_bind_eq_ok] at hok
      cases hok.2
      exact ⟨h.covered hleader hepoch hbase hcheck, rfl, rfl⟩
    | false =>
      rw [if_neg Bool.false_ne_true] at hok
      have hbase' : start.bases.get? base.key = some base := hkey ▸ hbase
      cases hcell : r.grouped.get? f.key with
      | some cell =>
        simp only [hcell] at hok
        obtain ⟨hholds, hne⟩ := h.cells base cell hbase' (hkey ▸ hcell)
        obtain ⟨cell', disk, hcell', rfl⟩ := extend_ok hholds (fun he => absurd he hne) hok
        exact ⟨h.uncovered hkeyed hleader hepoch hbase hcheck hcell' disk, rfl, rfl⟩
      | none =>
        simp only [hcell] at hok
        obtain ⟨⟨cell, r₁⟩, hopen, hok⟩ := bind_eq_ok.1 hok
        obtain ⟨hholds, hfirst, hcommit, disk, rfl⟩ := openCell_ok (B := B) hopen
        have hempty : base.uncovered frames = [] := h.no_cell base hbase' (hkey ▸ hcell)
        rw [h.scope_eq.2.2, ← hempty] at hholds
        obtain ⟨cell', disk', hcell', rfl⟩ := extend_ok hholds (fun _ => ⟨hfirst, hcommit⟩) hok
        exact ⟨h.uncovered hkeyed hleader hepoch hbase hcheck hcell' disk', rfl, rfl⟩

/-! ## Prefixes and witness -/

/-- Neighbours that fit are a chain. -/
theorem pairs_iff_isChain {r : α → α → Bool} :
    pairs r xs = true ↔ xs.IsChain fun a b => r a b = true := by
  induction xs with
  | nil => simp [pairs]
  | cons x xs ih =>
    cases xs with
    | nil => simp [pairs]
    | cons y ys => rw [pairs, Bool.and_eq_true, ih, isChain_cons_cons]

/-- The frames that are appended: the prefixes, and the witness frames that are not in them. -/
def appended (seeds witness : List VerifiedNodeFrame) : List VerifiedNodeFrame :=
  seeds ++ witness.filter fun w =>
    decide (∀ s ∈ seeds, s.scope.nodeSequence ≠ w.scope.nodeSequence)

/-- Two witness frames stand in the order of the node log. -/
def Consecutive (a b : VerifiedNodeFrame) : Prop :=
  (checkedAdd a.scope.nodeSequence 1 == some b.scope.nodeSequence) = true

/-- The state after the prefixes and a part of the witness. -/
structure Fed (B : BundleFormat) (start : StreamingRecovery)
    (seeds witness : List VerifiedNodeFrame) (r : StreamingRecovery) : Prop where
  inv : Inv B start (appended seeds witness) r
  digests : ∀ sequence digest, r.prefixDigests.get? sequence = some digest
    ↔ ∃ s ∈ seeds, s.scope.nodeSequence = sequence ∧ s.digest B.hash = digest
  agree : ∀ w ∈ witness, ∀ s ∈ seeds, s.scope.nodeSequence = w.scope.nodeSequence →
    s.digest B.hash = w.digest B.hash
  scope : ∀ w ∈ witness, w.scope.leaderSession = start.leader ∧ w.scope.logEpoch = start.epoch
  previous : r.previous = witness.getLast?.map (·.scope.nodeSequence)
  consecutive : witness.IsChain Consecutive

variable {seeds witness : List VerifiedNodeFrame}

/-- A frame of a prefix is fed. -/
theorem seedFrame_fed (hkeyed : Keyed start.bases) (h : Fed B start seeds [] r)
    (hok : seedFrame B r f = .ok r') : Fed B start (seeds ++ [f]) [] r' := by
  rw [seedFrame, reject_bind_eq_ok, Bool.or_eq_false_iff] at hok
  obtain ⟨⟨-, hfresh⟩, hok⟩ := hok
  rw [isSome_eq_false_iff, isNone_iff_eq_none] at hfresh
  have hinv : Inv B start seeds { r with
      prefixDigests := r.prefixDigests.insert f.scope.nodeSequence (f.digest B.hash) } := by
    have := h.inv
    simp only [appended, filter_nil, append_nil] at this
    exact ⟨this.bases_eq, this.scope_eq, this.cells, this.no_cell, this.based, this.checked⟩
  obtain ⟨hinv', hdigests, hprevious⟩ := append_inv hinv hkeyed hok
  refine ⟨?_, ?_, nofun, nofun, hprevious.trans h.previous, .nil⟩
  · simpa only [appended, filter_nil, append_nil] using hinv'
  · intro sequence digest
    rw [hdigests]
    rcases eq_or_ne sequence f.scope.nodeSequence with rfl | hne
    · rw [get?_insert_self, some.injEq]
      constructor
      · exact fun hd => ⟨f, by simp, rfl, hd⟩
      · rintro ⟨s, hs, hseq, hd⟩
        rcases mem_append.1 hs with hs | hs
        · -- an earlier seed with this sequence would have been refused
          exact absurd ((h.digests _ _).2 ⟨s, hs, hseq, hd⟩) (by rw [hfresh]; exact nofun)
        · rw [← hd, mem_singleton.1 hs]
    · rw [get?_insert_of_ne _ hne, h.digests]
      constructor
      · rintro ⟨s, hs, hseq, hd⟩
        exact ⟨s, mem_append_left _ hs, hseq, hd⟩
      · rintro ⟨s, hs, hseq, hd⟩
        rcases mem_append.1 hs with hs | hs
        · exact ⟨s, hs, hseq, hd⟩
        · rw [mem_singleton.1 hs] at hseq
          exact absurd hseq.symm hne

/-- A prefix is fed. -/
theorem seed_fed (hkeyed : Keyed start.bases) (h : Fed B start seeds [] r)
    (hok : seed B r frames = .ok r') : Fed B start (seeds ++ frames) [] r' := by
  rw [seed, reject_bind_eq_ok] at hok
  exact foldlM_ok (P := fun done s => Fed B start done [] s)
    (fun _ _ _ _ hs hstep => seedFrame_fed hkeyed hs hstep) h hok.2

/-- A frame of the witness is fed. -/
theorem push_fed (hkeyed : Keyed start.bases) (h : Fed B start seeds witness r)
    (hok : push B r f = .ok r') : Fed B start seeds (witness ++ [f]) r' := by
  rw [push, reject_bind_eq_ok, reject_bind_eq_ok, Bool.or_eq_false_iff,
    bne_eq_false_iff_eq, bne_eq_false_iff_eq] at hok
  obtain ⟨hscope, hnext, hok⟩ := hok
  rw [h.inv.scope_eq.1, h.inv.scope_eq.2.1] at hscope
  have hscoped : ∀ w ∈ witness ++ [f],
      w.scope.leaderSession = start.leader ∧ w.scope.logEpoch = start.epoch :=
    forall_mem_append.2 ⟨h.scope, forall_mem_singleton.2 hscope⟩
  have hconsecutive : (witness ++ [f]).IsChain Consecutive := by
    refine isChain_append.2 ⟨h.consecutive, isChain_singleton _, ?_⟩
    intro a ha b hb
    rw [head?_cons, mem_def, some.injEq] at hb
    rw [mem_def] at ha
    rw [h.previous, ha] at hnext
    rw [← hb]
    simpa [Consecutive] using hnext
  have hinv : Inv B start (appended seeds witness)
      { r with previous := some f.scope.nodeSequence } :=
    ⟨h.inv.bases_eq, h.inv.scope_eq, h.inv.cells, h.inv.no_cell, h.inv.based, h.inv.checked⟩
  have hagree : (∀ s ∈ seeds, s.scope.nodeSequence = f.scope.nodeSequence →
      s.digest B.hash = f.digest B.hash) → ∀ w ∈ witness ++ [f], ∀ s ∈ seeds,
      s.scope.nodeSequence = w.scope.nodeSequence → s.digest B.hash = w.digest B.hash := by
    exact fun hf => forall_mem_append.2 ⟨h.agree, forall_mem_singleton.2 hf⟩
  cases hdigest : r.prefixDigests.get? f.scope.nodeSequence with
  | some digest =>
    simp only [hdigest, reject_bind_eq_ok, bne_eq_false_iff_eq] at hok
    obtain ⟨rfl, hok⟩ := hok
    cases hok
    obtain ⟨s, hs, hseq, hd⟩ := (h.digests _ _).1 hdigest
    have hskip : appended seeds (witness ++ [f]) = appended seeds witness := by
      have : decide (∀ s ∈ seeds, s.scope.nodeSequence ≠ f.scope.nodeSequence) = false :=
        decide_eq_false fun hall => hall s hs hseq
      simp [appended, this]
    refine ⟨hskip ▸ hinv, h.digests, hagree fun s' hs' hseq' => ?_, hscoped, by simp, hconsecutive⟩
    have := (h.digests _ _).2 ⟨s', hs', hseq', rfl⟩
    rw [hdigest, some.injEq] at this
    exact this.symm
  | none =>
    simp only [hdigest] at hok
    obtain ⟨hinv', hdigests, hprevious⟩ := append_inv hinv hkeyed hok
    have hnew : ∀ s ∈ seeds, s.scope.nodeSequence ≠ f.scope.nodeSequence := by
      intro s hs hseq
      have := (h.digests _ _).2 ⟨s, hs, hseq, rfl⟩
      rw [hdigest] at this
      cases this
    have hkept : appended seeds (witness ++ [f]) = appended seeds witness ++ [f] := by
      have : decide (∀ s ∈ seeds, s.scope.nodeSequence ≠ f.scope.nodeSequence) = true :=
        decide_eq_true hnew
      simp [appended, this]
    refine ⟨hkept ▸ hinv', ?_, hagree fun s hs hseq => absurd hseq (hnew s hs), hscoped, ?_,
      hconsecutive⟩
    · intro sequence digest
      rw [hdigests]
      exact h.digests sequence digest
    · rw [hprevious]
      simp

end StreamingRecovery

end Cellule
