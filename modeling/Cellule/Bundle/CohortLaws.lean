import Cellule.Bundle.VerificationLaws
import Cellule.Lib.Pointwise

/-!
# Cohorts

The verifier of a cohort checks the bases in rounds, reads the extents of all bindings in windows
and follows each binding through its frames. It accepts a cohort of a size that it takes exactly
when each of its bindings is verified (`verifyCohort_eq_ok`).
-/

namespace Cellule

open Except List Option

namespace VerifyScope

variable {V : VerifyScope}

/-! ## Bases -/

variable {binding : Binding} {bindings : List Binding} {read r : CohortRead} {w : Window}
  {facts facts' : CohortFacts} {origin : OriginBundle}

/-- A base that is prepared is verified by its inventory. -/
theorem verifyBase_eq_ok_of_prepareBase (h : V.prepareBase binding = .ok (some (base, document))) :
    V.verifyBase binding = .ok () ↔ V.graph.inventory base document = .ok () := by
  obtain ⟨base', hbase, h⟩ := bind_eq_ok.1 h
  obtain ⟨document', hdocument, h⟩ := bind_eq_ok.1 h
  have hplan := ok.inj h
  split at hplan
  · obtain ⟨rfl, rfl⟩ := Prod.mk.inj (some.inj hplan)
    unfold verifyBase
    rw [hbase, ok_bind, hdocument, ok_bind]
  · cases hplan

/-- A verified base can be prepared. -/
theorem exists_prepareBase (h : V.verifyBase binding = .ok ()) :
    ∃ plan, V.prepareBase binding = .ok plan := by
  obtain ⟨base, hbase, h⟩ := bind_eq_ok.1 h
  obtain ⟨document, hdocument, -⟩ := bind_eq_ok.1 h
  exact ⟨_, bind_eq_ok.2 ⟨base, hbase, bind_eq_ok.2 ⟨document, hdocument, rfl⟩⟩⟩

/-- The plans of the bases of a round. -/
abbrev BasePlan (V : VerifyScope) := Binding × Option (CellRootRef × V.graph.Document)

/-- The plan is that of the binding. -/
def Plans (V : VerifyScope) (binding : Binding) (plan : V.BasePlan) : Prop :=
  plan.1 = binding ∧ V.prepareBase binding = .ok plan.2

theorem plans_iff :
    (do let p ← V.prepareBase binding; return (binding, p) : Result V.BasePlan) = .ok plan ↔
      V.Plans binding plan := by
  rw [bind_eq_ok]
  constructor
  · rintro ⟨p, hp, h⟩
    obtain rfl := ok.inj h
    exact ⟨rfl, hp⟩
  · rintro ⟨rfl, hp⟩
    exact ⟨plan.2, hp, rfl⟩

/-- The plan of a base is settled: by its inventory, or by a verification of its own. -/
def Settled (V : VerifyScope) (plan : V.BasePlan) : Prop :=
  match plan.2 with
  | some (base, document) => V.graph.inventory base document = .ok ()
  | none => V.verifyBase plan.1 = .ok ()

theorem Plans.settled_iff (h : V.Plans binding plan) :
    V.Settled plan ↔ V.verifyBase binding = .ok () := by
  obtain ⟨rfl, hplan⟩ := h
  unfold Settled
  split
  · next base document hsome =>
    rw [hsome] at hplan
    exact (verifyBase_eq_ok_of_prepareBase hplan).symm
  · rfl

/-- The two loops of a round settle every plan. -/
theorem settled_of_loops {plans : List V.BasePlan} :
    ((∀ p ∈ plans.filterMap (·.2), V.graph.inventory p.1 p.2 = .ok ()) ∧
      ∀ p ∈ plans.filter (·.2.isNone), V.verifyBase p.1 = .ok ()) ↔
        ∀ plan ∈ plans, V.Settled plan := by
  have hsettled : ∀ plan : V.BasePlan, V.Settled plan ↔
      (∀ p, plan.2 = some p → V.graph.inventory p.1 p.2 = .ok ()) ∧
        (plan.2.isNone → V.verifyBase plan.1 = .ok ()) := by
    rintro ⟨binding, _ | p⟩ <;> simp [Settled]
  simp only [hsettled, forall_and, mem_filterMap, mem_filter, and_imp, forall_exists_index]
  exact and_congr_left fun _ =>
    ⟨fun h plan hplan p => h p plan hplan, fun h p plan hplan => h plan hplan p⟩

/-- A round of at most `readConcurrency` bases never exceeds the budget of working bytes. -/
theorem verifyBaseChunk_eq_ok {chunk : List Binding} (h : chunk.length ≤ readConcurrency) :
    V.verifyBaseChunk chunk = .ok () ↔ ∀ b ∈ chunk, V.verifyBase b = .ok () := by
  unfold verifyBaseChunk
  rw [bind_eq_ok]
  simp only [mapM_eq_ok, plans_iff, reject_bind_eq_ok, forM_bind_eq_ok, forM_eq_ok]
  constructor
  · rintro ⟨plans, hplans, -, hinventory, hverify⟩ b hb
    obtain ⟨plan, hmem, hplan⟩ := hplans.exists_right hb
    exact hplan.settled_iff.1 (settled_of_loops.1 ⟨hinventory, hverify⟩ plan hmem)
  · intro hall
    obtain ⟨plans, hplans⟩ : ∃ plans, List.Forall₂ V.Plans chunk plans := by
      refine exists_forall₂ fun b hb => ?_
      obtain ⟨plan, hplan⟩ := exists_prepareBase (hall b hb)
      exact ⟨(b, plan), rfl, hplan⟩
    refine ⟨plans, hplans, ?_, settled_of_loops.2 ?_⟩
    · have hlength : (plans.filterMap fun plan => plan.2).length ≤ plans.length :=
        length_filterMap_le _ _
      rw [← hplans.length_eq] at hlength
      have hbytes : readConcurrency * workingBytes ≤ maxBundleBytes := by decide
      rw [decide_eq_false_iff_not, gt_iff_lt, not_lt]
      exact (Nat.mul_le_mul_right workingBytes (hlength.trans h)).trans hbytes
    · intro plan hmem
      obtain ⟨b, hb, hplan⟩ := hplans.exists_left hmem
      exact hplan.settled_iff.2 (hall b hb)

theorem baseChunks_flatten (h : bindings.length ≤ fuel) :
    (baseChunks fuel bindings).flatten = bindings := by
  induction fuel generalizing bindings with
  | zero => rw [length_eq_zero_iff.1 (Nat.le_zero.1 h)]; rfl
  | succ fuel ih =>
    cases bindings with
    | nil => rfl
    | cons b bindings =>
      have hrest : ((b :: bindings).drop readConcurrency).length ≤ fuel := by
        have hconcurrency : readConcurrency = 8 := rfl
        rw [length_drop]
        omega
      rw [baseChunks, flatten_cons, ih hrest, take_append_drop]
      exact cons_ne_nil b bindings

theorem baseChunks_length (h : chunk ∈ baseChunks fuel bindings) :
    chunk.length ≤ readConcurrency := by
  induction fuel generalizing bindings with
  | zero => cases h
  | succ fuel ih =>
    cases bindings with
    | nil => cases h
    | cons b bindings =>
      rcases mem_cons.1 h with rfl | h
      · exact length_take_le _ _
      · exact ih h

/-- The bases of a cohort are verified when each base is. -/
theorem verifyBases_eq_ok :
    V.verifyBases bindings = .ok () ↔ ∀ b ∈ bindings, V.verifyBase b = .ok () := by
  unfold verifyBases
  rw [forM_eq_ok]
  have hflatten := baseChunks_flatten (le_refl bindings.length)
  constructor
  · intro h b hb
    rw [← hflatten] at hb
    obtain ⟨chunk, hchunk, hb⟩ := mem_flatten.1 hb
    exact (verifyBaseChunk_eq_ok (baseChunks_length hchunk)).1 (h chunk hchunk) b hb
  · intro h chunk hchunk
    refine (verifyBaseChunk_eq_ok (baseChunks_length hchunk)).2 fun b hb => h b ?_
    rw [← hflatten]
    exact mem_flatten.2 ⟨chunk, hchunk, hb⟩

/-! ## Windows -/

/-- Where the extent of a read ends. -/
def CohortRead.stop (read : CohortRead) : Nat :=
  read.locator.offset.toNat + read.locator.bytes.toNat

/-- The read has a resolved extent that is not empty. -/
structure CohortRead.Resolved (read : CohortRead) : Prop where
  object : ∃ object, extent read.locator = .ok (object, read.stop)
  bytes : 0 < read.locator.bytes.toNat

theorem checkRead_eq_ok :
    checkRead read = .ok () ↔ read.Resolved ∧ read.locator.bytes.toNat ≤ maxBundleBytes := by
  unfold checkRead
  rw [bind_eq_ok]
  have hzero : read.locator.bytes = 0 ↔ read.locator.bytes.toNat = 0 := UInt64.toNat_inj.symm
  simp only [reject_eq_ok, Bool.or_eq_false_iff, beq_eq_false_iff_ne, ne_eq, hzero,
    decide_eq_false_iff_not, not_lt]
  constructor
  · rintro ⟨⟨object, stop⟩, hextent, hbytes, hbound⟩
    obtain ⟨hobject, hsum, rfl⟩ := extent_eq_ok.1 hextent
    exact ⟨⟨⟨object, hextent⟩, Nat.pos_of_ne_zero hbytes⟩, hbound⟩
  · rintro ⟨⟨⟨object, hextent⟩, hbytes⟩, hbound⟩
    exact ⟨_, hextent, hbytes.ne', hbound⟩

/-- A window has the extents of its reads, and not more than that. -/
structure Window.Good (w : Window) : Prop where
  object : ∀ r ∈ w.reads, extent r.locator = .ok (w.object, r.stop)
  starts : ∀ r ∈ w.reads, w.start ≤ r.locator.offset.toNat
  stops : ∀ r ∈ w.reads, r.stop ≤ w.stop
  attained : ∃ r ∈ w.reads, r.stop = w.stop ∧ r.Resolved
  useful : w.usefulBytes ≤ w.stop - w.start

theorem Window.Good.lt (h : w.Good) : w.start < w.stop := by
  obtain ⟨r, hr, hstop, hresolved⟩ := h.attained
  have hstart := h.starts r hr
  have hbytes := hresolved.bytes
  unfold CohortRead.stop at hstop
  omega

theorem Window.Good.le (h : w.Good) : w.stop ≤ u64Max := by
  obtain ⟨r, hr, hstop, -⟩ := h.attained
  obtain ⟨-, hbound, -⟩ := extent_eq_ok.1 (h.object r hr)
  unfold CohortRead.stop at hstop
  omega

theorem CohortRead.Resolved.exists_single (h : read.Resolved) :
    ∃ w, Window.single read = .ok w ∧ w.Good ∧ w.reads = [read] ∧
      read.locator.object = some w.object ∧ w.start = read.locator.offset.toNat := by
  obtain ⟨object, hextent⟩ := h.object
  refine ⟨⟨object, read.locator.offset.toNat, read.stop, read.locator.bytes.toNat, [read]⟩,
    bind_eq_ok.2 ⟨_, hextent, rfl⟩, ?_, rfl, (extent_eq_ok.1 hextent).1, rfl⟩
  exact ⟨forall_mem_singleton.2 hextent, forall_mem_singleton.2 le_rfl,
    forall_mem_singleton.2 le_rfl,
    ⟨read, mem_singleton_self read, rfl, h⟩, (Nat.add_sub_cancel_left ..).ge⟩

/-- The window with one more read is good, when the read does not start before it. -/
theorem Window.Good.snoc (h : w.Good) (hread : read.Resolved)
    (hobject : read.locator.object = some w.object) (hstart : w.start ≤ read.locator.offset.toNat) :
    Window.Good { w with
      stop := max read.stop w.stop
      usefulBytes := w.usefulBytes + (read.stop - max w.stop read.locator.offset.toNat)
      reads := w.reads ++ [read] } := by
  have hlt := h.lt
  have huseful := h.useful
  have hbytes := hread.bytes
  have hread_stop : read.stop = read.locator.offset.toNat + read.locator.bytes.toNat := rfl
  refine ⟨forall_mem_append.2 ⟨h.object, forall_mem_singleton.2 ?_⟩,
    forall_mem_append.2 ⟨h.starts, forall_mem_singleton.2 hstart⟩,
    forall_mem_append.2 ⟨fun r hr => (h.stops r hr).trans (le_max_right _ _),
      forall_mem_singleton.2 (le_max_left _ _)⟩, ?_, ?_⟩
  · obtain ⟨object, hextent⟩ := hread.object
    obtain ⟨hsome, -⟩ := extent_eq_ok.1 hextent
    obtain rfl := some.inj (hsome.symm.trans hobject)
    exact hextent
  · rcases le_total read.stop w.stop with hle | hle
    · obtain ⟨r, hr, hstop, hresolved⟩ := h.attained
      exact ⟨r, mem_append_left _ hr, hstop.trans (max_eq_right hle).symm, hresolved⟩
    · exact ⟨read, mem_append_right _ (mem_singleton.2 rfl), (max_eq_left hle).symm, hread⟩
  · dsimp only
    omega

/-- A window never fails to take up a read that does not start before it. -/
theorem Window.Good.grow (h : w.Good) (hread : read.Resolved)
    (hstart : read.locator.object = some w.object → w.start ≤ read.locator.offset.toNat) :
    w.grow read = .ok none ∨ ∃ w', w.grow read = .ok (some w') ∧ w'.Good ∧
      w'.reads = w.reads ++ [read] ∧ w'.object = w.object ∧ w'.start = w.start := by
  unfold Window.grow
  split_ifs with hother
  · exact .inl rfl
  rw [not_not] at hother
  obtain ⟨object, hextent⟩ := hread.object
  obtain ⟨-, hbound, -⟩ := extent_eq_ok.1 hextent
  have hread_stop : read.stop = read.locator.offset.toNat + read.locator.bytes.toNat := rfl
  have hadd : GateState.add w.usefulBytes (read.stop - max w.stop read.locator.offset.toNat)
      (Error.node "bundle locator overflow") =
      .ok (w.usefulBytes + (read.stop - max w.stop read.locator.offset.toNat)) := by
    have hlt := h.lt
    have hle := h.le
    have huseful := h.useful
    unfold GateState.add checkedAdd
    rw [if_pos (by omega)]
  rw [hextent, ok_bind]
  dsimp only
  rw [hadd, ok_bind]
  split_ifs with hspan
  · exact .inl rfl
  · exact .inr ⟨_, rfl, h.snoc hread hother (hstart hother), rfl, rfl, rfl⟩

/-- Among reads of one object the earlier offset comes first. -/
theorem CohortRead.offset_le {a b : CohortRead} (h : a.before b = true)
    (hobject : a.locator.object = b.locator.object) :
    a.locator.offset.toNat ≤ b.locator.offset.toNat := by
  unfold CohortRead.before CohortRead.key at h
  rw [decide_eq_true_eq, Prod.Lex.toLex_le_toLex, hobject] at h
  rcases h with h | h
  · exact absurd h (lt_irrefl _)
  · exact h.2

/-- No read starts before the window that is being filled. -/
def Window.Behind (w : Window) (reads : List CohortRead) : Prop :=
  ∀ r ∈ reads, r.locator.object = some w.object → w.start ≤ r.locator.offset.toNat

/-- Ordered reads are put into good windows, each read into one. -/
theorem exists_planWindows (hresolved : ∀ r ∈ reads, r.Resolved)
    (hsorted : reads.Pairwise fun a b => a.before b = true)
    (hfilling : ∀ w ∈ filling, w.Good ∧ w.Behind reads) :
    ∃ windows, planWindows filling reads = .ok windows ∧ (∀ w ∈ windows, w.Good) ∧
      windows.flatMap (·.reads) = filling.elim [] (·.reads) ++ reads := by
  induction reads generalizing filling with
  | nil =>
    cases filling with
    | none => exact ⟨[], rfl, by simp, rfl⟩
    | some w => exact ⟨[w], rfl, by simpa using (hfilling w rfl).1, rfl⟩
  | cons read reads ih =>
    obtain ⟨hread, hreads⟩ := forall_mem_cons.1 hresolved
    obtain ⟨hfirst, hsorted⟩ := pairwise_cons.1 hsorted
    -- a window that starts at this read is behind all later ones
    obtain ⟨next, hnext, hgood, hsingle, hobject, hstart⟩ := hread.exists_single
    have hbehind : next.Behind reads := by
      intro r hr hsame
      rw [hstart]
      exact CohortRead.offset_le (hfirst r hr) (hobject.trans hsame.symm)
    have hfresh : ∀ w ∈ some next, w.Good ∧ w.Behind reads := by
      rintro w ⟨⟩
      exact ⟨hgood, hbehind⟩
    obtain ⟨rest, hrest, hrest_good, hrest_reads⟩ := ih hreads hsorted hfresh
    rw [elim_some, hsingle, singleton_append] at hrest_reads
    cases filling with
    | none =>
      refine ⟨rest, ?_, hrest_good, hrest_reads⟩
      rw [planWindows, hnext, ok_bind, hrest]
    | some w =>
      obtain ⟨hw, hall⟩ := hfilling w rfl
      obtain ⟨hwread, hwreads⟩ := forall_mem_cons.1 hall
      rw [planWindows]
      rcases hw.grow hread hwread with hgrow | ⟨w', hgrow, hgood', hreads', hobject', hstart'⟩
      · refine ⟨w :: rest, ?_, forall_mem_cons.2 ⟨hw, hrest_good⟩, ?_⟩
        · rw [hgrow, ok_bind]
          dsimp only
          rw [hnext, ok_bind, hrest]
          rfl
        · rw [flatMap_cons, hrest_reads]
          rfl
      · have hgrown : ∀ w₀ ∈ some w', w₀.Good ∧ w₀.Behind reads := by
          rintro w₀ ⟨⟩
          refine ⟨hgood', fun r hr hsame => ?_⟩
          rw [hobject'] at hsame
          rw [hstart']
          exact hwreads r hr hsame
        obtain ⟨windows, hwindows, hwindows_good, hwindows_reads⟩ := ih hreads hsorted hgrown
        refine ⟨windows, ?_, hwindows_good, ?_⟩
        · rw [hgrow, ok_bind]
          exact hwindows
        · rw [hwindows_reads, elim_some, elim_some, hreads', append_assoc, singleton_append]

/-! ## Facts -/

/-- Facts with one frame more for each read, none of them known before. -/
inductive Records (V : VerifyScope) : CohortFacts → List CohortRead → CohortFacts → Prop
  | nil (facts : CohortFacts) : Records V facts [] facts
  | cons {facts facts' : CohortFacts} {read : CohortRead} {reads : List CohortRead}
      {frame : VerifiedNodeFrame} (hread : V.Reads read.binding read.locator frame)
      (hnew : facts read.index = none)
      (hrest : Records V (Function.update facts read.index (some (.fromFrame frame)))
        reads facts') :
      Records V facts (read :: reads) facts'

theorem Records.append (h : V.Records facts reads facts₁) (h' : V.Records facts₁ more facts₂) :
    V.Records facts (reads ++ more) facts₂ := by
  induction h with
  | nil => exact h'
  | cons hread hnew _ ih => exact .cons hread hnew (ih h')

theorem Records.of_append (h : V.Records facts (reads ++ more) facts₂) :
    ∃ facts₁, V.Records facts reads facts₁ ∧ V.Records facts₁ more facts₂ := by
  induction reads generalizing facts with
  | nil => exact ⟨facts, .nil facts, h⟩
  | cons read reads ih =>
    cases h with
    | cons hread hnew hrest =>
      obtain ⟨facts₁, hreads, hmore⟩ := ih hrest
      exact ⟨facts₁, .cons hread hnew hreads, hmore⟩

/-- Every read has a frame. -/
theorem Records.reads {reads : List CohortRead} (h : V.Records facts reads facts') :
    ∀ r ∈ reads, ∃ frame, V.Reads r.binding r.locator frame := by
  induction h with
  | nil => simp
  | cons hread _ _ ih => exact forall_mem_cons.2 ⟨⟨_, hread⟩, ih⟩

/-- What is known is not forgotten. -/
theorem Records.mono {reads : List CohortRead} (h : V.Records facts reads facts')
    (hi : facts i = some step) : facts' i = some step := by
  induction h with
  | nil => exact hi
  | @cons facts facts' read reads frame hread hnew hrest ih =>
    have hother : i ≠ read.index := by
      rintro rfl
      rw [hnew] at hi
      cases hi
    exact ih ((Function.update_of_ne hother _ _).trans hi)

/-- The frame of a read is known. -/
theorem Records.known {reads : List CohortRead} (h : V.Records facts reads facts')
    (hr : r ∈ reads) :
    ∃ frame, V.Reads r.binding r.locator frame ∧ facts' r.index = some (.fromFrame frame) := by
  induction h with
  | nil => cases hr
  | @cons facts facts' read reads frame hread hnew hrest ih =>
    rcases mem_cons.1 hr with rfl | hr
    · exact ⟨frame, hread, hrest.mono (Function.update_self _ _ _)⟩
    · exact ih hr

/-- Reads with different indices that all have a frame can be recorded. -/
theorem exists_records (hreads : ∀ r ∈ reads, ∃ frame, V.Reads r.binding r.locator frame)
    (hnodup : (reads.map (·.index)).Nodup) (hnew : ∀ r ∈ reads, facts r.index = none) :
    ∃ facts', V.Records facts reads facts' := by
  induction reads generalizing facts with
  | nil => exact ⟨facts, .nil facts⟩
  | cons read reads ih =>
    obtain ⟨⟨frame, hframe⟩, hreads⟩ := forall_mem_cons.1 hreads
    obtain ⟨hread_new, hnew⟩ := forall_mem_cons.1 hnew
    rw [map_cons, nodup_cons] at hnodup
    have hstill : ∀ r ∈ reads,
        Function.update facts read.index (some (.fromFrame frame)) r.index = none := by
      intro r hr
      have hother : r.index ≠ read.index := by
        intro hsame
        exact hnodup.1 (hsame ▸ mem_map_of_mem hr)
      exact (Function.update_of_ne hother _ _).trans (hnew r hr)
    obtain ⟨facts', hrest⟩ := ih hreads hnodup.2 hstill
    exact ⟨facts', .cons hframe hread_new hrest⟩

/-! ## Reading windows -/

/-- The extent of a read in the bytes of its window. -/
theorem slice_window {body : Bytes} {start stop offset count : Nat} (hstart : start ≤ offset)
    (hstop : offset + count ≤ stop) :
    ((((body.drop start).take (stop - start)).drop (offset - start)).take count) =
      (body.drop offset).take count := by
  rw [drop_take, take_take, drop_drop, Nat.min_eq_left (by omega), Nat.add_sub_cancel' hstart]

/-- The frames of reads of a window are those that their locators point at. -/
theorem inspectWindow_eq_ok (hw : w.Good) {body : Bytes}
    (hbody : V.store V.session V.epoch w.object = some body) (hstop : w.stop ≤ body.length)
    {reads : List CohortRead} (hreads : ∀ r ∈ reads, r ∈ w.reads) :
    V.inspectWindow w ((body.drop w.start).take (w.stop - w.start)) facts reads = .ok facts' ↔
      V.Records facts reads facts' := by
  induction reads generalizing facts with
  | nil =>
    constructor
    · intro h
      obtain rfl := ok.inj h
      exact .nil facts
    · rintro ⟨⟩
      rfl
  | cons read reads ih =>
    obtain ⟨hread, hreads⟩ := forall_mem_cons.1 hreads
    have hextent := hw.object read hread
    have hinside : read.stop ≤ w.stop := hw.stops read hread
    have hbytes : read.locator.offset.toNat + read.locator.bytes.toNat ≤ w.stop := hinside
    unfold inspectWindow
    rw [slice_window (hw.starts read hread) hbytes, bind_eq_ok]
    constructor
    · rintro ⟨frame, hframe, h⟩
      obtain ⟨hnew, h⟩ := reject_bind_eq_ok.1 h
      have hreads_frame : V.Reads read.binding read.locator frame :=
        ⟨w.object, body, hextent, hbody, hinside.trans hstop, hframe⟩
      exact .cons hreads_frame (isSome_eq_false_iff.1 hnew |> isNone_iff_eq_none.1)
        ((ih hreads).1 h)
    · intro h
      cases h with
      | @cons _ _ _ _ frame hframe hnew hrest =>
        obtain ⟨object, body', hextent', hbody', -, hframe⟩ := hframe
        obtain ⟨rfl, -⟩ := Prod.mk.inj (ok.inj (hextent.symm.trans hextent'))
        obtain rfl := some.inj (hbody.symm.trans hbody')
        refine ⟨frame, hframe, reject_bind_eq_ok.2 ⟨?_, (ih hreads).2 hrest⟩⟩
        rw [hnew]
        rfl

/-- A window is read exactly when each of its reads has its frame. -/
theorem readWindow_eq_ok (hloaded : origin.Loaded V.store) (hw : w.Good) :
    V.readWindow origin facts w = .ok facts' ↔ V.Records facts w.reads facts' := by
  have horigin : ∀ o, some origin = some o → o.Loaded V.store := by
    rintro o ⟨⟩
    exact hloaded
  unfold readWindow
  rw [bind_eq_ok]
  constructor
  · rintro ⟨bytes, hbytes, h⟩
    obtain ⟨hlength, h⟩ := reject_bind_eq_ok.1 h
    rw [bne_eq_false_iff_eq] at hlength
    obtain ⟨body, hbody, hstop, rfl⟩ := (readRange_eq_ok horigin hw.lt).1 ⟨hbytes, hlength⟩
    exact (inspectWindow_eq_ok hw hbody hstop fun _ hr => hr).1 h
  · intro h
    -- the read that ends where the window ends shows that the object is long enough
    obtain ⟨r, hr, hends, -⟩ := hw.attained
    obtain ⟨frame, object, body, hextent, hbody, hstop, -⟩ := h.reads r hr
    obtain ⟨rfl, -⟩ := Prod.mk.inj (ok.inj ((hw.object r hr).symm.trans hextent))
    rw [show r.locator.offset.toNat + r.locator.bytes.toNat = w.stop from hends] at hstop
    obtain ⟨hbytes, hlength⟩ := (readRange_eq_ok horigin hw.lt).2 ⟨body, hbody, hstop, rfl⟩
    refine ⟨_, hbytes, reject_bind_eq_ok.2 ⟨?_, ?_⟩⟩
    · rw [hlength, bne_self_eq_false]
    · exact (inspectWindow_eq_ok hw hbody hstop fun _ hr => hr).2 h

/-- Windows are read exactly when each of their reads has its frame. -/
theorem readWindows_eq_ok (hloaded : origin.Loaded V.store) {windows : List Window}
    (hwindows : ∀ w ∈ windows, w.Good) :
    windows.foldlM (V.readWindow origin) facts = .ok facts' ↔
      V.Records facts (windows.flatMap (·.reads)) facts' := by
  induction windows generalizing facts with
  | nil =>
    constructor
    · intro h
      obtain rfl := ok.inj h
      exact .nil facts
    · rintro ⟨⟩
      rfl
  | cons w windows ih =>
    obtain ⟨hw, hwindows⟩ := forall_mem_cons.1 hwindows
    rw [foldlM_cons, bind_eq_ok, flatMap_cons]
    constructor
    · rintro ⟨facts₁, hfirst, hrest⟩
      exact ((readWindow_eq_ok hloaded hw).1 hfirst).append ((ih hwindows).1 hrest)
    · intro h
      obtain ⟨facts₁, hfirst, hrest⟩ := h.of_append
      exact ⟨facts₁, (readWindow_eq_ok hloaded hw).2 hfirst, (ih hwindows).2 hrest⟩

/-! ## The reads of a cohort -/

theorem mem_cohortReads :
    r ∈ cohortReads bindings ↔ (r.binding, r.index.1) ∈ bindings.zipIdx ∧
      (r.locator, r.index.2) ∈ r.binding.locators.zipIdx := by
  unfold cohortReads
  rw [mem_flatMap]
  constructor
  · rintro ⟨⟨b, i⟩, hb, hr⟩
    obtain ⟨⟨l, j⟩, hl, rfl⟩ := mem_map.1 hr
    exact ⟨hb, hl⟩
  · rintro ⟨hb, hl⟩
    exact ⟨_, hb, mem_map.2 ⟨_, hl, rfl⟩⟩

theorem nodup_zipIdx_snd (xs : List α) : (xs.zipIdx.map (·.2)).Nodup := by
  rw [zipIdx_map_snd]
  exact nodup_range'

theorem cohortReads_nodup (bindings : List Binding) :
    ((cohortReads bindings).map (·.index)).Nodup := by
  unfold cohortReads
  rw [map_flatMap, nodup_flatMap]
  constructor
  · rintro ⟨b, i⟩ -
    rw [List.map_map]
    have hmap : ((b.locators.zipIdx.map (·.2)).map (i, ·)).Nodup :=
      (nodup_zipIdx_snd b.locators).map (Prod.mk_right_injective i)
    rw [List.map_map] at hmap
    exact hmap
  · refine (pairwise_map.1 (nodup_zipIdx_snd bindings)).imp ?_
    rintro ⟨b, i⟩ ⟨b', i'⟩ hother index hleft hright
    obtain ⟨r, hr, rfl⟩ := mem_map.1 hleft
    obtain ⟨r', hr', hindex⟩ := mem_map.1 hright
    obtain ⟨_, _, rfl⟩ := mem_map.1 hr
    obtain ⟨_, _, rfl⟩ := mem_map.1 hr'
    exact hother (Prod.mk.inj hindex).1.symm

/-- The reads of a cohort in the order of their extents, whatever that of equal extents. -/
structure Ordered (bindings : List Binding) (reads : List CohortRead) : Prop where
  perm : reads ~ cohortReads bindings
  sorted : reads.Pairwise fun a b => a.before b = true

theorem mergeSort_ordered (bindings : List Binding) :
    Ordered bindings ((cohortReads bindings).mergeSort CohortRead.before) := by
  refine ⟨mergeSort_perm _ _, pairwise_mergeSort (fun a b c hab hbc => ?_) (fun a b => ?_) _⟩
  · unfold CohortRead.before at hab hbc ⊢
    rw [decide_eq_true_eq] at hab hbc ⊢
    exact hab.trans hbc
  · unfold CohortRead.before
    rw [Bool.or_eq_true, decide_eq_true_eq, decide_eq_true_eq]
    exact le_total _ _

/-- The chain over known facts is the chain over their frames. -/
theorem foldlM_acceptFact
    (hfacts : ∀ j frame, frames[j]? = some frame → facts (index, j) = some (.fromFrame frame))
    (chain : BindingChain) :
    (List.range frames.length).foldlM (acceptFact facts index) chain = follow chain frames := by
  induction frames using List.reverseRecOn with
  | nil => rfl
  | append_singleton frames frame ih =>
    have hlast : facts (index, frames.length) = some (.fromFrame frame) :=
      hfacts frames.length frame getElem?_concat_length
    have hbefore : ∀ j frame, frames[j]? = some frame →
        facts (index, j) = some (.fromFrame frame) := by
      intro j frame' hj
      refine hfacts j frame' ?_
      rw [getElem?_append_left (List.getElem?_eq_some_iff.1 hj).1]
      exact hj
    rw [length_append, length_singleton, range_succ, foldlM_append, ih hbefore, follow_append]
    unfold acceptFact
    simp only [foldlM_cons, foldlM_nil, hlast]
    rfl

/-- Following known facts verifies all of a binding but its base. -/
theorem followFacts_eq_ok (hknown : ∀ (j : Nat) locator, binding.locators[j]? = some locator →
      ∃ frame, V.Reads binding locator frame ∧ facts (index, j) = some (.fromFrame frame)) :
    followFacts facts binding index = .ok () ↔
      ∃ frames chain, List.Forall₂ (V.Reads binding) binding.locators frames ∧
        (BindingChain.new binding >>= fun start => follow start frames) = .ok chain ∧
        chain.finish binding = .ok () := by
  obtain ⟨frames, hframes⟩ : ∃ frames, List.Forall₂ (V.Reads binding) binding.locators frames := by
    refine exists_forall₂ fun locator hlocator => ?_
    obtain ⟨j, hj⟩ := mem_iff_getElem?.1 hlocator
    obtain ⟨frame, hframe, -⟩ := hknown j locator hj
    exact ⟨frame, hframe⟩
  have hfacts : ∀ j frame, frames[j]? = some frame →
      facts (index, j) = some (.fromFrame frame) := by
    intro j frame hj
    obtain ⟨hlt, rfl⟩ := List.getElem?_eq_some_iff.1 hj
    have hlt' : j < binding.locators.length := hframes.length_eq ▸ hlt
    obtain ⟨frame', hframe', hfact⟩ := hknown j _ (getElem?_eq_getElem hlt')
    rw [hfact, hframe'.unique (hframes.get hlt' hlt)]
    rfl
  unfold followFacts
  rw [hframes.length_eq]
  constructor
  · intro h
    obtain ⟨start, hstart, h⟩ := bind_eq_ok.1 h
    obtain ⟨chain, hchain, hfinish⟩ := bind_eq_ok.1 h
    rw [foldlM_acceptFact hfacts] at hchain
    exact ⟨frames, chain, hframes, bind_eq_ok.2 ⟨start, hstart, hchain⟩, hfinish⟩
  · rintro ⟨frames', chain, hframes', hfollows, hfinish⟩
    obtain rfl := right_unique_forall₂' (fun _ _ _ h h' => h.unique h') hframes' hframes
    obtain ⟨start, hstart, hchain⟩ := bind_eq_ok.1 hfollows
    rw [← foldlM_acceptFact hfacts] at hchain
    exact bind_eq_ok.2 ⟨start, hstart, bind_eq_ok.2 ⟨chain, hchain, hfinish⟩⟩

/-! ## The cohort verifier -/

/-- The sizes that the cohort verifier takes. -/
structure Takes (bindings : List Binding) : Prop where
  count : bindings.length ≤ maxBundleFrames
  locators : ∀ b ∈ bindings, b.locators.length ≤ maxLocators

theorem orderedReads_eq_ok :
    orderedReads bindings = .ok reads ↔ Takes bindings ∧
      (∀ r ∈ cohortReads bindings, checkRead r = .ok ()) ∧
      reads = (cohortReads bindings).mergeSort CohortRead.before := by
  unfold orderedReads
  rw [reject_bind_eq_ok, forM_bind_eq_ok, Bool.or_eq_false_iff, decide_eq_false_iff_not,
    not_lt, List.any_eq_false]
  simp only [decide_eq_true_eq, not_lt]
  constructor
  · rintro ⟨⟨hcount, hlocators⟩, hchecks, h⟩
    exact ⟨⟨hcount, hlocators⟩, hchecks, (ok.inj h).symm⟩
  · rintro ⟨⟨hcount, hlocators⟩, hchecks, rfl⟩
    exact ⟨⟨hcount, hlocators⟩, hchecks, rfl⟩

/-- The frame of a locator is inside an object, which a window may read. -/
theorem Reads.checkRead (h : V.Reads r.binding r.locator frame)
    (hbytes : r.locator.bytes.toNat ≤ maxBundleBytes) : checkRead r = .ok () := by
  obtain ⟨object, body, hextent, -, -, hframe⟩ := h
  obtain ⟨hlength, hpos⟩ := checkedFrame_length hframe
  exact checkRead_eq_ok.2 ⟨⟨⟨object, hextent⟩, hlength ▸ hpos⟩, hbytes⟩

/-- All frames of a cohort are read, and each read has its frame. -/
theorem exists_facts (hloaded : origin.Loaded V.store) {reads : List CohortRead}
    (hordered : Ordered bindings reads)
    (hchecks : ∀ r ∈ cohortReads bindings, checkRead r = .ok ()) :
    ∃ windows, planWindows none reads = .ok windows ∧
      ∀ facts, windows.foldlM (V.readWindow origin) (fun _ => none) = .ok facts ↔
        V.Records (fun _ => none) reads facts := by
  have hresolved : ∀ r ∈ reads, r.Resolved :=
    fun r hr => (checkRead_eq_ok.1 (hchecks r (hordered.perm.mem_iff.1 hr))).1
  obtain ⟨windows, hwindows, hgood, hreads⟩ :=
    exists_planWindows hresolved hordered.sorted (show ∀ w ∈ none, _ from nofun)
  rw [elim_none, nil_append] at hreads
  refine ⟨windows, hwindows, fun facts => ?_⟩
  rw [readWindows_eq_ok hloaded hgood, hreads]

/-- Every read of a verified binding has its frame. -/
theorem Accepts.reads (h : ∀ b ∈ bindings, V.Accepts b) (hr : r ∈ cohortReads bindings) :
    ∃ frame, V.Reads r.binding r.locator frame := by
  obtain ⟨hb, hl⟩ := mem_cohortReads.1 hr
  obtain ⟨frames, chain, hverified⟩ := h r.binding (fst_mem_of_mem_zipIdx hb)
  obtain ⟨frame, -, hframe⟩ := hverified.reads.exists_right (fst_mem_of_mem_zipIdx hl)
  exact ⟨frame, hframe⟩

/-- When every frame of a cohort is known, following them completes the verification. -/
theorem followFacts_forM_eq_ok {reads : List CohortRead} (hordered : Ordered bindings reads)
    (hfacts : V.Records (fun _ => none) reads facts)
    (hbases : ∀ b ∈ bindings, V.verifyBase b = .ok ()) :
    (bindings.zipIdx.forM fun (b, index) => followFacts facts b index) = .ok () ↔
      ∀ b ∈ bindings, V.Accepts b := by
  have hknown : ∀ b index, (b, index) ∈ bindings.zipIdx → ∀ (j : Nat) locator,
      b.locators[j]? = some locator →
      ∃ frame, V.Reads b locator frame ∧ facts (index, j) = some (.fromFrame frame) := by
    intro b index hb j locator hl
    have hmem : (⟨(index, j), b, locator⟩ : CohortRead) ∈ cohortReads bindings :=
      mem_cohortReads.2 ⟨hb, mk_mem_zipIdx_iff_getElem?.2 hl⟩
    exact hfacts.known (hordered.perm.mem_iff.2 hmem)
  rw [forM_eq_ok]
  constructor
  · intro h b hb
    obtain ⟨index, hindex⟩ := mem_iff_getElem?.1 hb
    have hmem := mk_mem_zipIdx_iff_getElem?.2 hindex
    obtain ⟨frames, chain, hreads, hfollows, hends⟩ :=
      (followFacts_eq_ok (hknown b index hmem)).1 (h (b, index) hmem)
    exact ⟨frames, chain, hbases b hb, hreads, hfollows, hends⟩
  · rintro h ⟨b, index⟩ hmem
    obtain ⟨frames, chain, hverified⟩ := h b (fst_mem_of_mem_zipIdx hmem)
    exact (followFacts_eq_ok (hknown b index hmem)).2
      ⟨frames, chain, hverified.reads, hverified.follows, hverified.ends⟩

section
variable (hloaded : origin.Loaded V.store)
include hloaded

/-- A cohort of small frames is verified in windows: it must not be too large. -/
theorem verifyCohort_small_eq_ok
    (hsmall : ∀ b ∈ bindings, ∀ l ∈ b.locators, l.bytes.toNat ≤ scratchBytes) :
    V.verifyCohort origin bindings = .ok () ↔
      Takes bindings ∧ ∀ b ∈ bindings, V.Accepts b := by
  have hbranch : (bindings.any fun b =>
      b.locators.any fun l => decide (l.bytes.toNat > scratchBytes)) = false := by
    simpa [List.any_eq_false] using hsmall
  unfold verifyCohort
  rw [hbranch, if_neg Bool.false_ne_true, bind_eq_ok]
  have hordered := mergeSort_ordered bindings
  constructor
  · rintro ⟨_, hbases, h⟩
    obtain ⟨reads, hreads, h⟩ := bind_eq_ok.1 h
    obtain ⟨htakes, hchecks, rfl⟩ := orderedReads_eq_ok.1 hreads
    obtain ⟨windows, hwindows, hfold⟩ := exists_facts hloaded hordered hchecks
    rw [hwindows, ok_bind] at h
    obtain ⟨facts, hfacts, h⟩ := bind_eq_ok.1 h
    exact ⟨htakes,
      (followFacts_forM_eq_ok hordered ((hfold facts).1 hfacts) (verifyBases_eq_ok.1 hbases)).1 h⟩
  · rintro ⟨htakes, hall⟩
    have hbases : ∀ b ∈ bindings, V.verifyBase b = .ok () := by
      intro b hb
      obtain ⟨frames, chain, hverified⟩ := hall b hb
      exact hverified.base
    have hchecks : ∀ r ∈ cohortReads bindings, checkRead r = .ok () := by
      intro r hr
      obtain ⟨frame, hframe⟩ := Accepts.reads hall hr
      obtain ⟨hb, hl⟩ := mem_cohortReads.1 hr
      refine hframe.checkRead ((hsmall r.binding (fst_mem_of_mem_zipIdx hb) r.locator
        (fst_mem_of_mem_zipIdx hl)).trans ?_)
      exact Nat.div_le_self _ _
    obtain ⟨windows, hwindows, hfold⟩ := exists_facts hloaded hordered hchecks
    obtain ⟨facts, hfacts⟩ : ∃ facts, V.Records (fun _ => none)
        ((cohortReads bindings).mergeSort CohortRead.before) facts := by
      refine exists_records (fun r hr => Accepts.reads hall (hordered.perm.mem_iff.1 hr)) ?_
        fun _ _ => rfl
      exact (hordered.perm.map _).nodup_iff.2 (cohortReads_nodup bindings)
    refine ⟨(), verifyBases_eq_ok.2 hbases, bind_eq_ok.2
      ⟨_, orderedReads_eq_ok.2 ⟨htakes, hchecks, rfl⟩, ?_⟩⟩
    rw [hwindows, ok_bind, (hfold facts).2 hfacts, ok_bind]
    exact (followFacts_forM_eq_ok hordered hfacts hbases).2 hall

/-- A cohort with a frame that fits no window is verified one binding after the other. -/
theorem verifyCohort_large_eq_ok
    (hlarge : ¬∀ b ∈ bindings, ∀ l ∈ b.locators, l.bytes.toNat ≤ scratchBytes) :
    V.verifyCohort origin bindings = .ok () ↔ ∀ b ∈ bindings, V.Accepts b := by
  have hbranch : (bindings.any fun b =>
      b.locators.any fun l => decide (l.bytes.toNat > scratchBytes)) = true := by
    rw [← Bool.not_eq_false]
    simpa [List.any_eq_false] using hlarge
  have horigin : ∀ o, some origin = some o → o.Loaded V.store := by
    rintro o ⟨⟩
    exact hloaded
  unfold verifyCohort
  rw [hbranch, if_pos rfl, forM_eq_ok]
  simp only [verifyBinding_eq_ok horigin, Accepts]

/-- A cohort that is accepted has only bindings that are accepted on their own. -/
theorem accepts_of_verifyCohort
    (h : V.verifyCohort origin bindings = .ok ()) : ∀ b ∈ bindings, V.Accepts b := by
  by_cases hsmall : ∀ b ∈ bindings, ∀ l ∈ b.locators, l.bytes.toNat ≤ scratchBytes
  · exact ((verifyCohort_small_eq_ok hloaded hsmall).1 h).2
  · exact (verifyCohort_large_eq_ok hloaded hsmall).1 h

/-- A cohort of a size that the verifier takes is accepted exactly when each of its bindings is. -/
theorem verifyCohort_eq_ok (htakes : Takes bindings) :
    V.verifyCohort origin bindings = .ok () ↔ ∀ b ∈ bindings, V.Accepts b := by
  by_cases hsmall : ∀ b ∈ bindings, ∀ l ∈ b.locators, l.bytes.toNat ≤ scratchBytes
  · rw [verifyCohort_small_eq_ok hloaded hsmall]
    exact and_iff_right htakes
  · exact verifyCohort_large_eq_ok hloaded hsmall

end

end VerifyScope

end Cellule
