import Cellule.NodeLog.Streaming

/-!
# What a recovery returns

The tails of a streaming recovery are those of the Cells with an uncovered frame, in the order of
their keys, and each consists of exactly these frames (`RecoveredFrom`). On a witness alone the
in-memory form returns the same tails: it groups, filters and checks what the streaming form folded.
-/

namespace Cellule

open Except Tiling List OrderedMap

/-- The tail holds the frames, and ends where they end. -/
structure RecoveredFrom (B : BundleFormat) (base : RecoveryBase) (frames : List VerifiedNodeFrame)
    (tail : RecoveredCellTail) : Prop where
  application : tail.application = base.application
  cellEpoch : tail.cellEpoch = base.cellEpoch
  predecessor : tail.overlay.predecessor = base.root
  first : frames.head?.map (·.scope.nodeSequence) = some tail.firstNodeSequence
  last : frames.getLast?.map (·.scope.nodeSequence) = some tail.lastNodeSequence
  increasing : frames.Pairwise fun f g => f.scope.nodeSequence < g.scope.nodeSequence
  physical : base.root.position.ChainsTo (frames.map (·.segment)) tail.overlay.finalPosition
  commits : Tiles (base.root.commitSequence + 1) tail.overlay.finalCommitSequence
    (frames.map (·.commands))
  rows : tail.overlay.bundle.rows = rowsFrom 0 (frames.map (entryOf base))
  body : tail.overlay.bundle.body = B.envelope (frames.flatMap (·.body)) tail.overlay.bundle.rows

variable {B : BundleFormat} {limits : Limits} {base : RecoveryBase}
  {frames : List VerifiedNodeFrame} {cell : CellBuilder} {tail : RecoveredCellTail}

/-- What a sealed builder is the tail of. -/
theorem CellBuilder.Holds.finishCell (h : cell.Holds B limits base frames) (hne : frames ≠ [])
    (hok : StreamingRecovery.finishCell B cell = .ok tail) :
    RecoveredFrom B base frames tail
      ∧ B.encode (frames.map (entryOf base)) limits = .ok tail.overlay.bundle
      ∧ tail.overlay.finalPosition = endPosition base frames := by
  obtain ⟨bundle, hbundle, hok⟩ := bind_eq_ok.1 hok
  rw [reject_bind_eq_ok] at hok
  cases hok.2
  obtain ⟨hencode, hrows, hbody⟩ := h.wrote.encode_eq (h.limits_eq.symm ▸ h.limits_ok)
    (ofLtx_eq_ok.1 hbundle)
  obtain ⟨firstFrame, hfirst⟩ : ∃ g, frames.head? = some g := by
    cases frames with
    | nil => exact absurd rfl hne
    | cons g gs => exact ⟨g, rfl⟩
  obtain ⟨last, hlast⟩ : ∃ g, frames.getLast? = some g :=
    Option.isSome_iff_exists.1 (getLast?_isSome.2 hne)
  have hcommands := h.commands
  rw [hlast] at hcommands
  have hcommit : cell.lastCommitSequence = last.scope.commitSequence :=
    (Prod.ext_iff.1 hcommands).2
  have hflat : (frames.map (entryOf base)).flatMap (·.bytes) = frames.flatMap (·.body) := by
    rw [flatMap_map]
    rfl
  refine ⟨⟨?_, ?_, ?_, ?_, ?_, h.tail.increasing, ?_, ?_, hrows, ?_⟩, ?_, h.position⟩
  · exact congrArg RecoveryBase.application h.base_eq
  · exact congrArg RecoveryBase.cellEpoch h.base_eq
  · exact congrArg RecoveryBase.root h.base_eq
  · rw [hfirst]
    exact congrArg some (h.first firstFrame hfirst).symm
  · have hsequence := h.sequence
    rw [hlast] at hsequence
    rw [hlast]
    exact congrArg some hsequence.symm
  · exact h.position ▸ h.tail.physical
  · exact hcommit ▸ h.tail.tiles hlast
  · exact hbody.trans (by rw [hflat, hrows])
  · exact h.limits_eq ▸ hencode

/-! ## The in-memory form on the same frames -/

/-- The commands of a tail continue one another as the in-memory check decides it. -/
theorem CellTail.pairs (h : CellTail base frames) :
    pairs (fun a b => rangeContinues a.firstCommitSequence a.scope.commitSequence
      b.firstCommitSequence b.scope.commitSequence) frames = true := by
  rw [StreamingRecovery.pairs_iff_isChain]
  refine (isChain_map _).1 h.commands |>.imp fun a b hab => ?_
  rcases hab with hab | hab
  · obtain ⟨h1, h2⟩ := Prod.ext_iff.1 hab
    simp only [VerifiedNodeFrame.commands] at h1 h2
    simp [rangeContinues, h1, h2]
  · have hnext : checkedAdd a.scope.commitSequence 1 = some b.firstCommitSequence := by
      refine checkedAdd_eq_some.2 ⟨?_, hab⟩
      have := a.bound
      unfold i64Max at this
      unfold u64Max
      omega
    simp [rangeContinues, hnext]

/-- The loop that checks every frame of a Cell against its base passes. -/
theorem forM_checkBase {all : List VerifiedNodeFrame}
    (hchecked : ∀ f ∈ all, ∃ covered, checkBase base f = .ok covered) :
    (all.forM fun f => discard (checkBase base f)) = .ok () := by
  refine forM_eq_ok.2 fun f hf => ?_
  obtain ⟨covered, hcovered⟩ := hchecked f hf
  rw [hcovered]
  rfl

/-- The frames of a Cell whose uncovered ones a sealed builder holds are recovered to its tail. -/
theorem recoverCell_eq {all : List VerifiedNodeFrame}
    (hchecked : ∀ f ∈ all, ∃ covered, checkBase base f = .ok covered)
    (hframes : (all.filter fun f => decide (f.scope.commitSequence > base.root.commitSequence))
      = frames)
    (h : cell.Holds B limits base frames) (hne : frames ≠ [])
    (hok : StreamingRecovery.finishCell B cell = .ok tail) :
    recoverCell B base all limits = .ok (some tail) := by
  obtain ⟨hfrom, hencode, hposition⟩ := h.finishCell hne hok
  obtain ⟨firstFrame, hfirst, hfirstSequence⟩ := Option.map_eq_some_iff.1 hfrom.first
  obtain ⟨last, hlast, hlastSequence⟩ := Option.map_eq_some_iff.1 hfrom.last
  have hstart : firstFrame.firstCommitSequence = base.root.commitSequence + 1 :=
    h.tail.start firstFrame hfirst
  have hadd : checkedAdd base.root.commitSequence 1 = some firstFrame.firstCommitSequence := by
    refine checkedAdd_eq_some.2 ⟨?_, hstart⟩
    have h1 := firstFrame.range
    have h2 := firstFrame.bound
    unfold i64Max at h2
    unfold u64Max
    omega
  have hcommit : last.scope.commitSequence = tail.overlay.finalCommitSequence := by
    have h1 := (h.tail.tiles hlast).covers
    have h2 := hfrom.commits.covers
    have hin : ∀ n, base.root.commitSequence + 1 ≤ n ∧ n ≤ last.scope.commitSequence
        ↔ base.root.commitSequence + 1 ≤ n ∧ n ≤ tail.overlay.finalCommitSequence :=
      fun n => (h1 n).symm.trans (h2 n)
    have hge := (h1 firstFrame.firstCommitSequence).1
      ⟨firstFrame.commands, mem_map_of_mem (mem_of_mem_head? hfirst), le_rfl, firstFrame.range⟩
    have ha := (hin last.scope.commitSequence).1 ⟨by omega, le_rfl⟩
    have hb := (hin tail.overlay.finalCommitSequence).2 ⟨by omega, le_rfl⟩
    omega
  have hend : last.segment.position = tail.overlay.finalPosition := by
    rw [hposition, endPosition, hlast]
    rfl
  rw [recoverCell, forM_checkBase hchecked, ok_bind]
  simp only [hframes, hfirst, hlast, hadd, h.tail.pairs, bne_self_eq_false, Bool.not_true,
    Bool.or_self, reject_false, ok_bind, hencode, ofLtx, pure, Except.pure,
    ok.injEq, Option.some.injEq]
  rw [hfirstSequence, hlastSequence, hend, hcommit, ← hfrom.application, ← hfrom.cellEpoch,
    ← hfrom.predecessor]

/-- A Cell whose frames its base covers has no tail. -/
theorem recoverCell_none {all : List VerifiedNodeFrame}
    (hchecked : ∀ f ∈ all, ∃ covered, checkBase base f = .ok covered)
    (hframes : (all.filter fun f => decide (f.scope.commitSequence > base.root.commitSequence))
      = []) : recoverCell B base all limits = .ok none := by
  rw [recoverCell, forM_checkBase hchecked, ok_bind]
  simp [hframes, pure, Except.pure]

/-! ## All Cells -/

/-- The bases are under their own keys. -/
theorem baseMap_keyed (bases : List RecoveryBase) : StreamingRecovery.Keyed (baseMap bases) := by
  intro key base h
  obtain ⟨b, -, hb⟩ := mem_map.1 (mem_of_get?_ofList h)
  obtain ⟨h1, h2⟩ := Prod.ext_iff.1 hb
  simp only at h1 h2
  rw [← h2, h1]

/-- Distinct bases are all in the map, in the order of their keys. -/
theorem baseMap_values_perm
    (h : (baseMap bases).entries.length = bases.length) : (baseMap bases).values.Perm bases := by
  have hmem : ∀ e ∈ (baseMap bases).entries, e.2 ∈ bases ∧ e.2.key = e.1 := by
    intro e he
    have hget := get?_eq_some.2 he
    refine ⟨?_, baseMap_keyed bases _ _ hget⟩
    obtain ⟨b, hb, heq⟩ := mem_map.1 (mem_of_get?_ofList hget)
    exact (Prod.ext_iff.1 heq).2 ▸ hb
  have hnodup : (baseMap bases).values.Nodup := by
    refine pairwise_map.2 ((baseMap bases).sorted.imp_of_mem ?_)
    intro a b ha hb hlt heq
    rw [← (hmem a ha).2, ← (hmem b hb).2, heq] at hlt
    exact lt_irrefl _ hlt
  have hsub : (baseMap bases).values ⊆ bases := by
    intro b hb
    obtain ⟨e, he, rfl⟩ := mem_map.1 hb
    exact (hmem e he).1
  refine (hnodup.subperm hsub).perm_of_length_le ?_
  rw [OrderedMap.values, length_map, h]

namespace StreamingRecovery

variable {bases : List RecoveryBase} {leader : SessionId} {epoch : Nat} {disk : Option DiskBudget}
  {seeds : List (List VerifiedNodeFrame)} {witness : List VerifiedNodeFrame}
  {tails : List RecoveredCellTail}

/-- A recovery that succeeded fed its prefixes and its witness to a new state and sealed it. -/
theorem recover_ok (h : recover B bases leader epoch limits disk seeds witness = .ok tails) :
    (baseMap bases).entries.length = bases.length ∧ ∃ start r : StreamingRecovery,
      start.bases = baseMap bases ∧ start.limits = limits ∧ start.leader = leader
        ∧ start.epoch = epoch ∧ Fed B start seeds.flatten witness r ∧ r.finish B = .ok tails := by
  obtain ⟨start, hnew, h⟩ := bind_eq_ok.1 h
  obtain ⟨r₁, hseeds, h⟩ := bind_eq_ok.1 h
  obtain ⟨r, hwitness, hfinish⟩ := bind_eq_ok.1 h
  simp only [new, reject_bind_eq_ok, bne_eq_false_iff_eq, pure, Except.pure, ok.injEq] at hnew
  obtain ⟨-, hlength, hstart⟩ := hnew
  have hkeyed : Keyed start.bases := by
    rw [← hstart]
    exact baseMap_keyed bases
  have hempty : Fed B start (List.flatten []) [] start := by
    rw [← hstart]
    exact ⟨⟨rfl, ⟨rfl, rfl, rfl⟩, fun _ _ _ h => (by cases h), fun _ _ _ => rfl,
      fun _ _ h => (by cases h), forall_mem_nil _⟩, by simp, forall_mem_nil _,
      forall_mem_nil _, rfl, .nil⟩
  have hseeded := foldlM_ok (P := fun done s => Fed B start done.flatten [] s)
    (fun done frames s s' hs hstep => by
      rw [flatten_append, flatten_singleton]
      exact seed_fed hkeyed hs hstep) hempty hseeds
  have hfed := foldlM_ok (P := fun done s => Fed B start seeds.flatten done s)
    (fun _ _ _ _ hs hstep => push_fed hkeyed hs hstep) hseeded hwitness
  refine ⟨hlength, start, r, ?_, ?_, ?_, ?_, hfed, hfinish⟩ <;> rw [← hstart]

/-- Under a collision-free digest the appended frames are those of the prefixes and the witness. -/
theorem mem_appended {seeds : List VerifiedNodeFrame} (h : Fed B start seeds witness r)
    (hdigest : ∀ s ∈ seeds, ∀ w ∈ witness, s.digest B.hash = w.digest B.hash → s = w)
    : f ∈ appended seeds witness ↔ f ∈ seeds ∨ f ∈ witness := by
  rw [appended, mem_append, mem_filter, decide_eq_true_eq]
  constructor
  · rintro (hf | ⟨hf, -⟩)
    · exact Or.inl hf
    · exact Or.inr hf
  · rintro (hf | hf)
    · exact Or.inl hf
    · by_cases hnew : ∀ s ∈ seeds, s.scope.nodeSequence ≠ f.scope.nodeSequence
      · exact Or.inr ⟨hf, hnew⟩
      · push Not at hnew
        obtain ⟨s, hs, hseq⟩ := hnew
        exact Or.inl (hdigest s hs f hf (h.agree f hf s hs hseq) ▸ hs)

section
variable {start r : StreamingRecovery}

/-- The builders, found by walking the bases. -/
theorem Inv.values_eq (h : Inv B start frames r) :
    r.grouped.values = start.bases.entries.filterMap fun e => r.grouped.get? e.1 := by
  rw [OrderedMap.values, entries_eq_filterMap h.based, map_filterMap]
  refine filterMap_congr fun e _ => ?_
  rw [Option.map_map]
  exact Option.map_id'

/-- Every Cell with an uncovered frame has its tail, and no other Cell has one. -/
theorem Inv.finish (h : Inv B start frames r) (hkeyed : Keyed start.bases)
    (hok : r.finish B = .ok tails) :
    List.Forall₂ (fun base tail => RecoveredFrom B base (base.uncovered frames) tail)
      (start.bases.values.filter fun base => !(base.uncovered frames).isEmpty) tails := by
  rw [StreamingRecovery.finish, h.values_eq, mapM_eq_ok] at hok
  have hwalk : ∀ (es : List (RecoveryKey × RecoveryBase)) (tails : List RecoveredCellTail),
      (∀ e ∈ es, start.bases.get? e.1 = some e.2) →
      List.Forall₂ (fun cell tail => finishCell B cell = .ok tail)
        (es.filterMap fun e => r.grouped.get? e.1) tails →
      List.Forall₂ (fun base tail => RecoveredFrom B base (base.uncovered frames) tail)
        ((es.map (·.2)).filter fun base => !(base.uncovered frames).isEmpty) tails := by
    intro es
    induction es with
    | nil =>
      intro tails _ htails
      rw [filterMap_nil, forall₂_nil_left_iff] at htails
      rw [htails]
      exact .nil
    | cons e es ih =>
      intro tails hes htails
      have hbase := hes e mem_cons_self
      have hkey := hkeyed e.1 e.2 hbase
      rw [← hkey] at hbase
      have hes' : ∀ e' ∈ es, start.bases.get? e'.1 = some e'.2 :=
        fun e' he' => hes e' (mem_cons_of_mem _ he')
      cases hcell : r.grouped.get? e.1 with
      | none =>
        simp only [filterMap_cons, hcell] at htails
        rw [map_cons, filter_cons_of_neg]
        · exact ih tails hes' htails
        · simp [h.no_cell e.2 hbase (hkey ▸ hcell)]
      | some cell =>
        obtain ⟨hholds, hne⟩ := h.cells e.2 cell hbase (hkey ▸ hcell)
        simp only [filterMap_cons, hcell, forall₂_cons_left_iff] at htails
        obtain ⟨tail, tails', htail, htails', rfl⟩ := htails
        rw [map_cons, filter_cons_of_pos (by simpa using hne)]
        exact .cons (hholds.finishCell hne htail).1 (ih tails' hes' htails')
  exact hwalk _ _ (fun e he => get?_eq_some.2 he) hok

/-- The frames of a witness by their keys. -/
theorem get?_group (witness : List VerifiedNodeFrame) (key : RecoveryKey) :
    (witness.foldl group .empty).get? key
      = if witness.filter (fun f => decide (f.key = key)) = [] then none
        else some (witness.filter fun f => decide (f.key = key)) := by
  induction witness using List.reverseRecOn with
  | nil => rfl
  | append_singleton fs f ih =>
    rw [foldl_append, foldl_cons, foldl_nil, group]
    rcases eq_or_ne key f.key with rfl | hne
    · rw [get?_insert_self, ih]
      split
      · next hnil => simp [hnil]
      · simp
    · rw [get?_insert_of_ne _ hne, ih]
      simp [Ne.symm hne]

/-- The frames of a group were checked against the base of the group. -/
theorem Inv.checked_group (h : Inv B start witness r)
    (hbase : start.bases.get? base.key = some base) :
    ∀ f ∈ witness.filter (fun f => decide (f.key = base.key)),
      ∃ covered, checkBase base f = .ok covered := by
  intro f hf
  rw [mem_filter, decide_eq_true_eq] at hf
  obtain ⟨-, -, b, hb, hcheck⟩ := h.checked f hf.1
  rw [hf.2, hbase, Option.some.injEq] at hb
  exact hb ▸ hcheck

/-- The frames of a group that the base does not cover. -/
theorem filter_group (base : RecoveryBase) (witness : List VerifiedNodeFrame) :
    ((witness.filter fun f => decide (f.key = base.key)).filter
      fun f => decide (f.scope.commitSequence > base.root.commitSequence))
      = base.uncovered witness := by
  rw [filter_filter, RecoveryBase.uncovered]
  simp only [gt_iff_lt, Bool.and_comm]

/-- The groups, walked in the order of the bases, are recovered to the tails of the builders. -/
theorem Inv.mapM_groups (h : Inv B start witness r) (hkeyed : Keyed start.bases)
    {es : List (RecoveryKey × RecoveryBase)} (hes : ∀ e ∈ es, start.bases.get? e.1 = some e.2)
    (htails : List.Forall₂ (fun cell tail => finishCell B cell = .ok tail)
      (es.filterMap fun e => r.grouped.get? e.1) tails) :
    ∃ recovered, List.Forall₂ (fun group found => recoverGroup B start.bases start.limits group
        = .ok found)
      (es.filterMap fun e => ((witness.foldl group .empty).get? e.1).map fun fs => (e.1, fs))
      recovered ∧ recovered.filterMap id = tails := by
  induction es generalizing tails with
  | nil =>
    rw [filterMap_nil, forall₂_nil_left_iff] at htails
    exact ⟨[], .nil, htails.symm⟩
  | cons e es ih =>
    have hkey := hkeyed e.1 e.2 (hes e mem_cons_self)
    have hbase : start.bases.get? e.2.key = some e.2 := hkey ▸ hes e mem_cons_self
    have hes' : ∀ e' ∈ es, start.bases.get? e'.1 = some e'.2 :=
      fun e' he' => hes e' (mem_cons_of_mem _ he')
    rw [filterMap_cons, ← hkey, get?_group]
    cases hcell : r.grouped.get? e.1 with
    | none =>
      simp only [filterMap_cons, hcell] at htails
      obtain ⟨recovered, hrecovered, hfound⟩ := ih hes' htails
      split_ifs
      · exact ⟨recovered, hrecovered, hfound⟩
      · refine ⟨none :: recovered, .cons ?_ hrecovered, hfound⟩
        simp only [recoverGroup, hbase]
        refine recoverCell_none (h.checked_group hbase) ?_
        rw [filter_group]
        exact h.no_cell e.2 hbase (hkey ▸ hcell)
    | some cell =>
      obtain ⟨hholds, hne⟩ := h.cells e.2 cell hbase (hkey ▸ hcell)
      simp only [filterMap_cons, hcell, forall₂_cons_left_iff] at htails
      obtain ⟨tail, tails', htail, htails', rfl⟩ := htails
      obtain ⟨recovered, hrecovered, hfound⟩ := ih hes' htails'
      rw [if_neg]
      · refine ⟨some tail :: recovered, .cons ?_ hrecovered, congrArg (tail :: ·) hfound⟩
        simp only [recoverGroup, hbase]
        exact recoverCell_eq (h.checked_group hbase) (filter_group e.2 witness) hholds hne htail
      · intro hnil
        rw [← filter_group, hnil] at hne
        exact hne rfl

/-- On a witness alone, the in-memory form recovers the tails that the streaming form returned. -/
theorem Fed.buildRecoveryOverlays (h : Fed B start [] witness r)
    (hbases : start.bases = baseMap bases) (hlength : (baseMap bases).entries.length = bases.length)
    (hne : witness ≠ []) (hok : r.finish B = .ok tails) :
    Cellule.buildRecoveryOverlays B witness bases start.limits = .ok tails := by
  have hinv : Inv B start witness r := by simpa [appended] using h.inv
  have hkeyed : Keyed start.bases := hbases ▸ baseMap_keyed bases
  rw [StreamingRecovery.finish, hinv.values_eq, mapM_eq_ok] at hok
  obtain ⟨recovered, hrecovered, hfound⟩ :=
    hinv.mapM_groups hkeyed (fun e he => get?_eq_some.2 he) hok
  have hgroups : ∀ key fs, (witness.foldl group .empty).get? key = some fs →
      ∃ base, start.bases.get? key = some base := by
    intro key fs hget
    rw [get?_group] at hget
    split_ifs at hget with hnil
    obtain ⟨f, hf⟩ := exists_mem_of_ne_nil _ hnil
    rw [mem_filter, decide_eq_true_eq] at hf
    obtain ⟨-, -, base, hbase, -⟩ := hinv.checked f hf.1
    exact ⟨base, hf.2 ▸ hbase⟩
  rw [← entries_eq_filterMap hgroups, ← mapM_eq_ok] at hrecovered
  have hbased : ∀ f ∈ witness, reject ((start.bases.get? f.key).isNone)
      (Error.node "recovery frame has no exact published base") = .ok () := by
    intro f hf
    obtain ⟨-, -, base, hbase, -⟩ := hinv.checked f hf
    simp [hbase]
  cases witness with
  | nil => exact absurd rfl hne
  | cons first rest =>
    have hfirst := h.scope first mem_cons_self
    have hscope : ((first :: rest).any fun f => f.scope.leaderSession != first.scope.leaderSession
        || f.scope.logEpoch != first.scope.logEpoch) = false := by
      rw [any_eq_false]
      intro f hf
      have hf' := h.scope f hf
      simp [hf'.1, hf'.2, hfirst.1, hfirst.2]
    have hpairs := pairs_iff_isChain.2 h.consecutive
    rw [Cellule.buildRecoveryOverlays, hscope, hpairs, ← hbases, reject_bind_eq_ok,
      reject_bind_eq_ok, forM_bind_eq_ok]
    refine ⟨rfl, ?_, hbased, ?_⟩
    · rw [hbases, hlength, bne_self_eq_false]
    · rw [hrecovered, ok_bind]
      exact congrArg Except.ok hfound

end

/-- The tails of a streaming recovery are those of the bases with an uncovered frame, in the order
of their keys. Each consists of exactly the frames of the base's Cell, among the prefixes and the
witness, beyond the base; on a non-empty witness without prefixes the in-memory form returns the
same. -/
theorem recovered_tails (h : recover B bases leader epoch limits disk seeds witness = .ok tails)
    (hdigest : ∀ s ∈ seeds.flatten, ∀ w ∈ witness, s.digest B.hash = w.digest B.hash → s = w) :
    (∃ frames : RecoveryBase → List VerifiedNodeFrame,
      (∀ base f, f ∈ frames base ↔ (f ∈ seeds.flatten ∨ f ∈ witness) ∧ base.Owns f
          ∧ base.root.commitSequence < f.scope.commitSequence)
        ∧ (baseMap bases).values.Perm bases
        ∧ List.Forall₂ (fun base tail => RecoveredFrom B base (frames base) tail)
          ((baseMap bases).values.filter fun base => !(frames base).isEmpty) tails)
      ∧ (seeds = [] → witness ≠ [] → buildRecoveryOverlays B witness bases limits = .ok tails) := by
  obtain ⟨hlength, start, r, hbases, hlimits, -, -, hfed, hfinish⟩ := recover_ok h
  have hkeyed : Keyed start.bases := hbases ▸ baseMap_keyed bases
  refine ⟨⟨fun base => base.uncovered (appended seeds.flatten witness), ?_,
    baseMap_values_perm hlength, ?_⟩, ?_⟩
  · intro base f
    rw [RecoveryBase.mem_uncovered, mem_appended hfed hdigest, RecoveryBase.key_eq_iff]
  · rw [← hbases]
    exact hfed.inv.finish hkeyed hfinish
  · rintro rfl hne
    rw [← hlimits]
    exact Fed.buildRecoveryOverlays hfed hbases hlength hne hfinish

/-! ## A recovery of two frames -/

namespace Sample

/-- The published base of the sample's only Cell. -/
def published : RecoveryBase :=
  ⟨.fill 16 1, 1, ⟨.fill 32 2, .fill 16 3, .fill 32 0, ⟨5, 7⟩, 4⟩⟩

/-- A frame of one command after the base. -/
def frame (sequence commit : Nat) (byte : UInt8) (h : commit ≤ i64Max) : VerifiedNodeFrame where
  scope := ⟨.fill 16 4, 1, sequence, .fill 16 1, .fill 32 2, .fill 16 3, 1, commit⟩
  firstCommitSequence := commit
  segment := ⟨commit + 1, commit + 1, 512, 1, commit + 2, commit + 3, 1, .fill 32 byte⟩
  body := [byte]
  encoded := [byte + 100]
  range := le_rfl
  bound := h

def first : VerifiedNodeFrame := frame 10 5 1 (by decide)

def second : VerifiedNodeFrame := frame 11 6 2 (by decide)

/-- A format whose hash repeats the first byte, and which prints these two rows as one byte. -/
noncomputable def format : BundleFormat :=
  let rows := rowsFrom 0 [entryOf published first, entryOf published second]
  { hash := fun bytes => .fill 32 (bytes.headD 0)
    toVec := Codec.print [rows]
    fromSlice := fun bytes =>
      match Codec.read [rows] bytes with
      | some rows => .ok rows
      | none => .error .json
    fromSlice_toVec := fun rows' => by rw [Codec.read_print]
    verifySegmentReader := fun _ _ _ => .ok () }

def bounds : Limits := ⟨1024, 1024, 1024, 1024, 16⟩

/-- The tail of the two frames. -/
noncomputable def wholeTail : RecoveredCellTail :=
  let rows := rowsFrom 0 [entryOf published first, entryOf published second]
  { application := .fill 16 1
    cellEpoch := 1
    firstNodeSequence := 10
    lastNodeSequence := 11
    overlay := ⟨published.root, format.ofValidated (format.envelope [1, 2] rows) rows, ⟨7, 9⟩, 6⟩ }

/-- The sample is recovered. -/
theorem recovered : recover format [published] (.fill 16 4) 1 bounds none [[first]] [first, second]
    = .ok [wholeTail] := rfl

end Sample

/-- The tail of the sample has the frames beyond its base. -/
theorem recovered_tails_sample :
    recover Sample.format [Sample.published] (.fill 16 4) 1 Sample.bounds none [[Sample.first]]
        [Sample.first, Sample.second] = .ok [Sample.wholeTail]
      ∧ ∃ frames : RecoveryBase → List VerifiedNodeFrame, ∀ base f, f ∈ frames base ↔
        (f ∈ [[Sample.first]].flatten ∨ f ∈ [Sample.first, Sample.second]) ∧ base.Owns f
          ∧ base.root.commitSequence < f.scope.commitSequence := by
  refine ⟨Sample.recovered, ?_⟩
  obtain ⟨⟨frames, hframes, -, -⟩, -⟩ := recovered_tails Sample.recovered (by
    intro s hs w hw heq
    rw [mem_singleton.1 hs] at heq ⊢
    rcases mem_pair.1 hw with rfl | rfl
    · rfl
    · exact absurd heq (by decide))
  exact ⟨frames, hframes⟩

/-- The streaming form accepts a witness without frames and returns no tails; the in-memory form
refuses it. -/
theorem recover_empty_witness :
    recover Sample.format [] (.fill 16 4) 1 Sample.bounds none [] [] = .ok []
      ∧ buildRecoveryOverlays Sample.format [] [] Sample.bounds
        = .error (.node "recovery witness is empty") :=
  ⟨rfl, rfl⟩

end StreamingRecovery

end Cellule
