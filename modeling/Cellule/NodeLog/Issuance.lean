import Cellule.Lib.Stateful
import Cellule.Ltx.NodeFrameLaws
import Cellule.NodeLog.Coverage

/-!
# What a gate issues to one Cell

Captures of different Cells share the sequence counter of a gate. `commitFramesLocked` is
`commit_frames` with its writes to the locked state one after another; that it is atomic is
`commitFramesLocked_outcome`. `IssuanceRun` keeps, beside the gate, the captures it assigned and the
closures it returned, and `IssuanceRun.Inv` says how the per-Cell maps stand for them. `step_move`
and `Move.inv` are the step lemmas, `run_inv` is the run lemma.
-/

namespace Cellule

open Except Stateful List GateState

/-! ## Frames that were built -/

/-- A validated header covers at least one transaction. -/
theorem Header.minTxid_le_maxTxid {h : Header} (hok : h.validate = .ok ()) :
    h.minTxid.toNat ≤ h.maxTxid.toNat := by
  simp only [Header.validate, reject_bind_eq_ok] at hok
  obtain ⟨-, -, -, -, -, hle, -⟩ := hok
  exact UInt64.le_iff_toNat_le.1 (by simpa using hle)

/-- A verified body covers at least one transaction. -/
theorem Primitives.validateBody_txids {P : Primitives}
    {segment : SegmentInfo} (h : P.validateBody body segment limits = .ok u) :
    segment.minTxid ≤ segment.maxTxid := by
  obtain ⟨-, h⟩ := reject_bind_eq_ok.1 h
  obtain ⟨-, h⟩ := reject_bind_eq_ok.1 h
  obtain ⟨-, h⟩ := reject_bind_eq_ok.1 h
  obtain ⟨-, h⟩ := reject_bind_eq_ok.1 h
  obtain ⟨d, hheader, h⟩ := bind_eq_ok.1 h
  obtain ⟨_, -, h⟩ := bind_eq_ok.1 h
  obtain ⟨⟨pages, d₁⟩, hpages, h⟩ := bind_eq_ok.1 h
  obtain ⟨d₂, hclose, h⟩ := bind_eq_ok.1 h
  obtain ⟨⟨size, digest⟩, -, h⟩ := bind_eq_ok.1 h
  rw [reject_eq_ok, bne_eq_false_iff_eq] at h
  have hsame : d₂.header = d.header :=
    (Decoder.close_ok hclose).2.trans (Decoder.decodePages_ok hpages).1
  have hle := Header.minTxid_le_maxTxid (Decoder.decodeHeader_ok hheader)
  rw [← h]
  exact hsame ▸ hle

/-- A built frame has a range of transactions. -/
theorem Primitives.Built.txids {P : Primitives}
    (hf : P.Built limits f) : f.segment.minTxid ≤ f.segment.maxTxid :=
  Primitives.validateBody_txids (encode_eq_ok.1 hf.encode_eq).2.2.1

/-! ## Committing frames under the lock -/

namespace GateState

/-- `DurabilityGate::commit_frames` (`node/log/mod.rs:477`) on the locked state: the writes stand
where the source has them. -/
def commitFramesLocked (hash : Hash) (ticket : CommitTicket)
    (frames : List VerifiedNodeFrame) : Stateful Error GateState (Option AssignedCommitRange) := do
  let g ← look
  rejectWhen g.fenced .fenced
  rejectWhen g.rotating (.node "node log is rotating")
  rejectWhen (ticket.leaderSession != g.leaderSession || ticket.logEpoch != g.logEpoch
    || ticket.firstSequence != g.nextSequence || ticket.firstSequence == 0
    || decide (ticket.firstSequence > ticket.lastSequence)
    || decide (ticket.lastSequence - ticket.firstSequence ≥ maxTicketFrames))
    (.node "node-log ticket reservation changed")
  rejectWhen (!frames.isEmpty
    && frames.length != ticket.lastSequence - ticket.firstSequence + 1)
    (.node "node-log assigned frame range differs")
  let staged ← lift (g.checkFrames ticket frames 0 none none)
  let nextSequence ← lift (add ticket.lastSequence 1 (.node "node sequence overflow"))
  change fun g => { g with nextSequence }
  change fun g => { g with
    cellIssued := match staged.1 with
      | some issued => g.cellIssued.insert issued.scope issued
      | none => g.cellIssued }
  pure (staged.2.map fun a => { a with
    digest := hash (frames.flatMap fun frame => (frame.digest hash).asBytes)
    captureDigest := captureDigest hash (frames.map (·.segment)) })

variable {g g' : GateState} {t : CommitTicket} {hash : Hash}

/-- The staged validation is atomic: the calls that fail, wherever they fail, leave the gate as it
was, and the others do what `commitFrames` says. -/
theorem commitFramesLocked_outcome (hash : Hash) (g : GateState)
    (ticket : CommitTicket) (frames : List VerifiedNodeFrame) :
    (commitFramesLocked hash ticket frames).outcome g = match g.commitFrames hash ticket frames with
      | .ok (a, g') => (.ok a, g')
      | .error e => (.error e, g) := by
  unfold commitFramesLocked commitFrames refuseStopped
  simp only [outcome_look_bind, outcome_rejectWhen_bind,
    outcome_lift_bind, outcome_change_bind, outcome_pure]
  -- each refusal of the two is the same, and the state is written only after the last one
  cases hfenced : g.fenced <;> cases hrotating : g.rotating <;> try rfl
  simp only [Except.reject, Bool.false_eq_true, if_false]
  split_ifs <;> try rfl
  cases hcheck : g.checkFrames ticket frames 0 none none with
  | error e => simp
  | ok staged =>
    cases hnext : add ticket.lastSequence 1 (.node "node sequence overflow") with
    | error e => simp
    | ok next => rfl

/-! ## One submission -/

/-- The endpoint that a gate of the session and epoch stores for a Cell after a frame of it. -/
def issuedRange (session : SessionId) (epoch : Nat) (frame : VerifiedNodeFrame) :
    CellIssuedRange where
  leaderSession := session
  logEpoch := epoch
  scope := cellScope frame.scope
  lastNodeSequence := frame.scope.nodeSequence
  commitSequence := frame.scope.commitSequence
  firstCommitSequence := frame.firstCommitSequence
  position := frame.segment.position

/-- Two frames of one capture that follow each other. -/
structure Continues (a b : VerifiedNodeFrame) : Prop where
  scope : cellScope b.scope = cellScope a.scope
  first : b.firstCommitSequence = a.firstCommitSequence
  commit : b.scope.commitSequence = a.scope.commitSequence
  txid : b.segment.minTxid = a.segment.maxTxid + 1

/-- The frame goes beyond what its Cell was last issued. -/
def Advances (g : GateState) (frame : VerifiedNodeFrame) : Prop :=
  ∀ previous, g.cellIssued.lookup (cellScope frame.scope) = some previous →
    previous.commitSequence < frame.firstCommitSequence
      ∧ previous.position.txid < frame.segment.maxTxid

variable {frame : VerifiedNodeFrame}

/-- A frame that passes advances its Cell. -/
theorem advances_ok (h : g.advances frame = .ok u) : g.Advances frame := by
  intro previous hprevious
  rw [advances, reject_eq_ok, hprevious, Option.any_some] at h
  simp only [Bool.or_eq_false_iff, decide_eq_false_iff_not, Nat.not_le] at h
  exact ⟨h.1.2, h.2⟩

/-- A frame that passes continues the transactions. -/
theorem continues_ok (h : continues previous frame = .ok u) :
    frame.segment.minTxid = previous.position.txid + 1 := by
  have hrest : add previous.position.txid 1 (.node "Cell TXID overflow") >>= (fun next =>
      Except.reject (frame.segment.minTxid != next
        || frame.segment.preChecksum != previous.position.checksum)
        (.node "node-log Cell issuance has a gap")) = .ok u := by
    obtain ⟨-, h⟩ := reject_bind_eq_ok.1 h
    dsimp only at h
    split at h
    · exact h
    · obtain ⟨-, h⟩ := add_bind_eq_ok.1 h
      exact (reject_bind_eq_ok.1 h).2
  obtain ⟨-, hrest⟩ := add_bind_eq_ok.1 hrest
  rw [reject_eq_ok, Bool.or_eq_false_iff, bne_eq_false_iff_eq] at hrest
  exact hrest.1

/-- The assignment a frame agrees with is that of the first frame. -/
theorem assign_ok (h : g.assign t frame (some a) = .ok a') :
    (a.scope = cellScope frame.scope ∧ a.firstCommit = frame.firstCommitSequence
        ∧ a.commit = frame.scope.commitSequence)
      ∧ a'.scope = a.scope ∧ a'.firstCommit = a.firstCommit ∧ a'.commit = a.commit := by
  obtain ⟨hsame, h⟩ := reject_bind_eq_ok.1 h
  cases h
  simp only [Bool.or_eq_false_iff, bne_eq_false_iff_eq] at hsame
  exact ⟨⟨hsame.1.1, hsame.1.2, hsame.2⟩, rfl, rfl, rfl⟩

/-- What the loop of `commit_frames` found out about the frames after one that it accepted. -/
theorem checkFrames_continues
    (ha : a.scope = cellScope frame.scope ∧ a.firstCommit = frame.firstCommitSequence ∧
      a.commit = frame.scope.commitSequence)
    (h : g.checkFrames t frames index (some (issuedRange g.leaderSession g.logEpoch frame))
      (some a) = .ok r) :
    (frame :: frames).IsChain Continues
      ∧ frames.map (·.scope.nodeSequence) = List.range' (t.firstSequence + index) frames.length
      ∧ r.1 = some (issuedRange g.leaderSession g.logEpoch
          ((frame :: frames).getLast (cons_ne_nil _ _))) := by
  induction frames generalizing frame index a with
  | nil =>
    cases h
    exact ⟨.singleton _, rfl, rfl⟩
  | cons next frames ih =>
    obtain ⟨a', hassign, h⟩ := bind_eq_ok.1 h
    obtain ⟨-, h⟩ := reject_bind_eq_ok.1 h
    obtain ⟨hsequence, h⟩ := reject_bind_eq_ok.1 h
    obtain ⟨_, hcontinues, h⟩ := bind_eq_ok.1 h
    obtain ⟨-, h⟩ := reject_bind_eq_ok.1 h
    obtain ⟨⟨hscope, hfirst, hcommit⟩, hscope', hfirst', hcommit'⟩ := assign_ok hassign
    simp only [Bool.or_eq_false_iff, bne_eq_false_iff_eq] at hsequence
    obtain ⟨hchain, hsequences, hlast⟩ := ih
      ⟨hscope'.trans hscope, hfirst'.trans hfirst, hcommit'.trans hcommit⟩ h
    refine ⟨.cons_cons ⟨?_, ?_, ?_, continues_ok hcontinues⟩ hchain, ?_, hlast⟩
    · exact hscope.symm.trans ha.1
    · exact hfirst.symm.trans ha.2.1
    · exact hcommit.symm.trans ha.2.2
    · rw [map_cons, hsequences, length_cons, range'_succ, hsequence.2, Nat.add_assoc]

/-- What the loop of `commit_frames` found out about a submission that it accepted. -/
theorem checkFrames_ok (h : g.checkFrames t (frame :: frames) 0 none none = .ok r) :
    g.Advances frame ∧ cellScope frame.scope ∉ g.closedCells
      ∧ (frame :: frames).IsChain Continues
      ∧ (frame :: frames).map (·.scope.nodeSequence)
          = List.range' t.firstSequence (frames.length + 1)
      ∧ r.1 = some (issuedRange g.leaderSession g.logEpoch
          ((frame :: frames).getLast (cons_ne_nil _ _))) := by
  obtain ⟨a, hassign, h⟩ := bind_eq_ok.1 h
  obtain ⟨hopen, h⟩ := reject_bind_eq_ok.1 h
  obtain ⟨hsequence, h⟩ := reject_bind_eq_ok.1 h
  obtain ⟨_, hadvances, h⟩ := bind_eq_ok.1 h
  obtain ⟨-, h⟩ := reject_bind_eq_ok.1 h
  cases hassign
  simp only [Bool.or_eq_false_iff, bne_eq_false_iff_eq] at hsequence
  obtain ⟨hchain, hsequences, hlast⟩ := checkFrames_continues ⟨rfl, rfl, rfl⟩ h
  refine ⟨advances_ok hadvances, of_decide_eq_false hopen, hchain, ?_, hlast⟩
  rw [map_cons, hsequences, range'_succ, hsequence.2, Nat.add_zero, Nat.zero_add]

end GateState

/-! ## Runs -/

/-- One submission with frames that a gate assigned. -/
structure Capture where
  ticket : CommitTicket
  first : VerifiedNodeFrame
  rest : List VerifiedNodeFrame

namespace Capture

def frames (c : Capture) : List VerifiedNodeFrame := c.first :: c.rest

def last (c : Capture) : VerifiedNodeFrame := c.frames.getLast (cons_ne_nil _ _)

/-- The Cell writer of the capture. -/
def scope (c : Capture) : CellLogScope := cellScope c.first.scope

/-- A capture is one range of node sequences and of transactions, of one Cell and one range of
commands. -/
structure Ordered (c : Capture) : Prop where
  sequences : c.frames.map (·.scope.nodeSequence) = c.ticket.sequences
  chain : c.frames.IsChain GateState.Continues
  txids : c.frames.Pairwise fun a b => a.segment.maxTxid < b.segment.maxTxid

/-- Everything in one capture lies before everything in another one. -/
structure Precedes (a b : Capture) : Prop where
  sequences : ∀ f ∈ a.frames, ∀ f' ∈ b.frames, f.scope.nodeSequence < f'.scope.nodeSequence
  commits : ∀ f ∈ a.frames, ∀ f' ∈ b.frames, f.scope.commitSequence < f'.firstCommitSequence
  txids : ∀ f ∈ a.frames, ∀ f' ∈ b.frames, f.segment.maxTxid < f'.segment.maxTxid

end Capture

/-- What a run of a gate did for its Cells. -/
inductive IssuanceEvent where
  | assigned (capture : Capture)
  | closed (scope : CellLogScope) (base : CellRootRef) (range : CellIssuedRange)

/-- The captures of one Cell, in the order of their assignment. -/
def capturesOf (scope : CellLogScope) (events : List IssuanceEvent) : List Capture :=
  events.filterMap fun
    | .assigned capture => if capture.scope = scope then some capture else none
    | .closed _ _ _ => none

/-- A gate with what it assigned and closed. -/
structure IssuanceRun where
  gate : GateState
  events : List IssuanceEvent

namespace IssuanceRun

def start (g : GateState) : IssuanceRun := ⟨g, []⟩

/-- The event of a submission. One without frames is not of any Cell. -/
def submitted (ticket : CommitTicket) : List VerifiedNodeFrame → List IssuanceEvent
  | [] => []
  | first :: rest => [.assigned ⟨ticket, first, rest⟩]

/-- One call. Frames are committed on the locked state, whatever state a failure leaves. -/
def step (hash : Hash) (r : IssuanceRun) : GateCall → IssuanceRun
  | .commitFrames ticket frames =>
    match (commitFramesLocked hash ticket frames).outcome r.gate with
    | (.ok _, g) => ⟨g, r.events ++ submitted ticket frames⟩
    | (.error _, g) => ⟨g, r.events⟩
  | .closeCellIssuance scope base =>
    match r.gate.closeCellIssuance scope base with
    | .ok (range, g) => ⟨g, r.events ++ [.closed scope base range]⟩
    | .error _ => r
  | call =>
    match GateRun.perform hash r.gate call with
    | .ok (g, _) => { r with gate := g }
    | .error _ => r

/-- The calls of a run, in order. -/
def run (hash : Hash) (r : IssuanceRun) (calls : List GateCall) : IssuanceRun :=
  calls.foldl (step hash) r

end IssuanceRun

/-! ## Captures that were accepted -/

/-- An element of an ordered list is its last one, or comes before it. -/
theorem eq_or_rel_getLast? {l : List α} (h : l.Pairwise R)
    (ha : a ∈ l) (hb : l.getLast? = some b) : a = b ∨ R a b := by
  obtain ⟨init, rfl⟩ := getLast?_eq_some_iff.1 hb
  rcases mem_append.1 ha with hinit | hlast
  · exact Or.inr ((pairwise_append.1 h).2.2 a hinit b (mem_singleton_self b))
  · exact Or.inl (mem_singleton.1 hlast)

namespace Capture

variable {c : Capture} {P : Primitives} {limits : Limits}

/-- The first frame is a frame. -/
theorem first_mem (c : Capture) : c.first ∈ c.frames := mem_cons_self

/-- The last frame is a frame. -/
theorem last_mem (c : Capture) : c.last ∈ c.frames := getLast_mem _

/-- The frames end with the last one. -/
theorem getLast?_frames (c : Capture) : c.frames.getLast? = some c.last :=
  getLast?_eq_some_getLast _

variable {f : VerifiedNodeFrame}

/-- All frames of a capture are of its Cell and its range of commands. -/
theorem same_of_chain (h : c.frames.IsChain GateState.Continues) (hf : f ∈ c.frames) :
    cellScope f.scope = c.scope
      ∧ f.firstCommitSequence = c.first.firstCommitSequence
      ∧ f.scope.commitSequence = c.first.scope.commitSequence := by
  let same (a b : VerifiedNodeFrame) : Prop := cellScope b.scope = cellScope a.scope
    ∧ b.firstCommitSequence = a.firstCommitSequence
    ∧ b.scope.commitSequence = a.scope.commitSequence
  have : IsTrans VerifiedNodeFrame same :=
    ⟨fun _ _ _ hab hbc => ⟨hbc.1.trans hab.1, hbc.2.1.trans hab.2.1, hbc.2.2.trans hab.2.2⟩⟩
  have hchain : c.frames.IsChain same := h.imp fun _ _ hab => ⟨hab.scope, hab.first, hab.commit⟩
  rcases mem_cons.1 hf with rfl | hf
  · exact ⟨rfl, rfl, rfl⟩
  · exact hchain.rel_cons hf

/-- The transactions of built frames that follow each other increase. -/
theorem txids_of_chain (h : c.frames.IsChain GateState.Continues)
    (hbuilt : ∀ f ∈ c.frames, P.Built limits f) :
    c.frames.Pairwise fun a b => a.segment.maxTxid < b.segment.maxTxid := by
  have : IsTrans VerifiedNodeFrame fun a b => a.segment.maxTxid < b.segment.maxTxid :=
    ⟨fun _ _ _ => Nat.lt_trans⟩
  refine isChain_iff_pairwise.1 (IsChain.imp_of_mem_imp (fun a b _ hb hab => ?_) h)
  have hle := (hbuilt b hb).txids
  have htxid := hab.txid
  omega

/-- The last frame of a capture has its last transaction. -/
theorem Ordered.le_last (h : c.Ordered) (hf : f ∈ c.frames) :
    f.segment.maxTxid ≤ c.last.segment.maxTxid := by
  rcases eq_or_rel_getLast? h.txids hf c.getLast?_frames with rfl | hlt
  · exact le_rfl
  · exact hlt.le

/-- No frame ends before the first one. -/
theorem Ordered.first_le (h : c.Ordered) (hf : f ∈ c.frames) :
    c.first.segment.maxTxid ≤ f.segment.maxTxid := by
  rcases mem_cons.1 hf with rfl | hf
  · exact le_rfl
  · exact ((pairwise_cons.1 h.txids).1 f hf).le

/-- All frames have one commit. -/
theorem Ordered.commit_eq (h : c.Ordered) (hf : f ∈ c.frames) :
    f.scope.commitSequence = c.last.scope.commitSequence :=
  (same_of_chain h.chain hf).2.2.trans (same_of_chain h.chain c.last_mem).2.2.symm

/-- A frame is within its ticket. -/
theorem Ordered.mem_sequences (h : c.Ordered) (hf : f ∈ c.frames) :
    c.ticket.firstSequence ≤ f.scope.nodeSequence
      ∧ f.scope.nodeSequence ≤ c.ticket.lastSequence := by
  rw [← CommitTicket.mem_sequences, ← h.sequences]
  exact mem_map_of_mem hf

/-- A capture that advances beyond the last one of its Cell comes after all of them. -/
theorem precedes_of_advances {captures : List Capture} (h : c.Ordered)
    (hcaptures : captures.Pairwise Precedes) (hordered : ∀ a ∈ captures, a.Ordered)
    (hbelow : ∀ a ∈ captures, ∀ f ∈ a.frames, f.scope.nodeSequence < c.ticket.firstSequence)
    (hadvances : ∀ a, captures.getLast? = some a →
      a.last.scope.commitSequence < c.first.firstCommitSequence
        ∧ a.last.segment.maxTxid < c.first.segment.maxTxid) :
    ∀ a ∈ captures, a.Precedes c := by
  intro a ha
  obtain ⟨l, hl⟩ : ∃ l, captures.getLast? = some l := by
    rw [← Option.isSome_iff_exists, getLast?_isSome]
    exact ne_nil_of_mem ha
  obtain ⟨hcommit, htxid⟩ := hadvances l hl
  have hlast : ∀ f ∈ a.frames, f.scope.commitSequence ≤ l.last.scope.commitSequence
      ∧ f.segment.maxTxid ≤ l.last.segment.maxTxid := by
    intro f hf
    rcases eq_or_rel_getLast? hcaptures ha hl with rfl | hal
    · exact ⟨((hordered a ha).commit_eq hf).le, (hordered a ha).le_last hf⟩
    · have hrange := l.last.range
      have := hal.commits f hf l.last l.last_mem
      exact ⟨by omega, (hal.txids f hf l.last l.last_mem).le⟩
  refine ⟨fun f hf f' hf' => ?_, fun f hf f' hf' => ?_, fun f hf f' hf' => ?_⟩
  · exact (hbelow a ha f hf).trans_le (h.mem_sequences hf').1
  · rw [(same_of_chain h.chain hf').2.1]
    exact (hlast f hf).1.trans_lt hcommit
  · exact ((hlast f hf).2.trans_lt htxid).trans_le (h.first_le hf')

end Capture

/-! ## What one call does -/

namespace GateState

/-- Nothing of what a gate keeps per Cell changes. -/
structure SameIssuance (g g' : GateState) : Prop where
  session : g'.leaderSession = g.leaderSession
  epoch : g'.logEpoch = g.logEpoch
  issued : g'.cellIssued = g.cellIssued
  closed : g'.closedCells = g.closedCells
  next : g.nextSequence ≤ g'.nextSequence

/-- The gate assigns a capture. -/
structure Assigns (g : GateState) (c : Capture) (g' : GateState) : Prop where
  session : g'.leaderSession = g.leaderSession
  epoch : g'.logEpoch = g.logEpoch
  issued : g'.cellIssued
    = g.cellIssued.insert c.scope (issuedRange g.leaderSession g.logEpoch c.last)
  closed : g'.closedCells = g.closedCells
  first : c.ticket.firstSequence = g.nextSequence
  next : g'.nextSequence = c.ticket.lastSequence + 1
  isOpen : c.scope ∉ g.closedCells
  advances : g.Advances c.first
  sequences : c.frames.map (·.scope.nodeSequence) = c.ticket.sequences
  chain : c.frames.IsChain Continues

variable {g g' : GateState} {t : CommitTicket} {hash : Hash}

/-- No frames assign nothing. -/
theorem commitFrames_empty (h : g.commitFrames hash t [] = .ok (a, g')) : g.SameIssuance g' := by
  have hissues := commitFrames_ok h
  have hle : g.nextSequence ≤ g'.nextSequence := by
    have h₁ := hissues.first
    have h₂ := hissues.ordered
    have h₃ := hissues.next
    omega
  simp only [commitFrames, reject_bind_eq_ok, refuseStopped_bind_eq_ok, checkFrames,
    ok_bind, add_bind_eq_ok, pure, Except.pure, ok.injEq, Prod.mk.injEq] at h
  obtain ⟨-, -, -, -, -, -, rfl⟩ := h
  exact ⟨rfl, rfl, rfl, rfl, hle⟩

/-- Frames that are committed are assigned as one capture. -/
theorem commitFrames_assigns (h : g.commitFrames hash t (first :: rest) = .ok (a, g')) :
    g.Assigns ⟨t, first, rest⟩ g' := by
  have hissues := commitFrames_ok h
  simp only [commitFrames, reject_bind_eq_ok, refuseStopped_bind_eq_ok] at h
  obtain ⟨-, -, -, hlength, h⟩ := h
  obtain ⟨⟨issued, assignment⟩, hcheck, h⟩ := bind_eq_ok.1 h
  obtain ⟨hadvances, hopen, hchain, hsequences, hlast⟩ := checkFrames_ok hcheck
  simp only [add_bind_eq_ok, pure, Except.pure, ok.injEq, Prod.mk.injEq] at h
  obtain ⟨-, -, rfl⟩ := h
  refine ⟨rfl, rfl, ?_, rfl, hissues.first, hissues.next, hopen, hadvances, ?_, hchain⟩
  · -- the staged endpoint is stored under the Cell of the last frame, which is that of the first
    have hscope := (Capture.same_of_chain (c := ⟨t, first, rest⟩) hchain
      (Capture.last_mem ⟨t, first, rest⟩)).1
    dsimp only at hlast
    rw [hlast]
    dsimp only [issuedRange]
    rw [← hscope]
    rfl
  · have hordered := hissues.ordered
    simp only [isEmpty_cons, Bool.not_false, Bool.true_and, bne_eq_false_iff_eq,
      length_cons] at hlength
    rw [Capture.frames, hsequences, CommitTicket.sequences]
    congr 1
    show rest.length + 1 = t.lastSequence + 1 - t.firstSequence
    omega

end GateState

/-- What the gate returns for a Cell that was never issued anything. -/
def GateState.baseRange (session : SessionId) (epoch : Nat) (scope : CellLogScope)
    (base : CellRootRef) : CellIssuedRange where
  leaderSession := session
  logEpoch := epoch
  scope
  lastNodeSequence := 0
  firstCommitSequence := base.commitSequence
  commitSequence := base.commitSequence
  position := base.position

namespace IssuanceRun

variable {r r' : IssuanceRun} {hash : Hash} {P : Primitives} {limits : Limits}

/-- What one call, whose frames are all built, can do to a gate and to what it assigned and
closed. -/
inductive Move (P : Primitives) (limits : Limits) (r : IssuanceRun) : IssuanceRun → Prop
  | keep {g : GateState} (same : r.gate.SameIssuance g) : Move P limits r { r with gate := g }
  | assign {g : GateState} {c : Capture} (h : r.gate.Assigns c g)
      (built : ∀ f ∈ c.frames, P.Built limits f) :
      Move P limits r ⟨g, r.events ++ [.assigned c]⟩
  | close (scope : CellLogScope) (base : CellRootRef) :
      Move P limits r ⟨{ r.gate with closedCells := insert scope r.gate.closedCells },
        r.events ++ [.closed scope base ((r.gate.cellIssued.lookup scope).getD
          (baseRange r.gate.leaderSession r.gate.logEpoch scope base))]⟩

variable {g : GateState} {call : GateCall}

/-- A ticket assigns nothing. -/
theorem issue_same (h : g.issue n = .ok (t, g')) : g.SameIssuance g' := by
  simp only [GateState.issue, reject_bind_eq_ok, refuseStopped_bind_eq_ok,
    add_bind_eq_ok, pure, Except.pure, ok.injEq, Prod.mk.injEq] at h
  obtain ⟨-, -, -, -, -, -, rfl⟩ := h
  exact ⟨rfl, rfl, rfl, rfl, by dsimp only; omega⟩

/-- The calls that neither commit frames nor close a Cell. -/
theorem perform_same (h : GateRun.perform hash r.gate call = .ok (g, t))
    (hcommit : ∀ ticket frames, call ≠ .commitFrames ticket frames)
    (hclose : ∀ scope base, call ≠ .closeCellIssuance scope base) : r.gate.SameIssuance g := by
  cases GateRun.perform_ok h with
  | issue hcall => exact issue_same hcall
  | commitFrames hcall => exact absurd rfl (hcommit _ _)
  | closeCellIssuance closed => exact absurd rfl (hclose _ _)
  | _ => exact ⟨rfl, rfl, rfl, rfl, le_rfl⟩

/-- A run may stay. -/
theorem Move.refl (r : IssuanceRun) : Move P limits r r := .keep ⟨rfl, rfl, rfl, rfl, le_rfl⟩

/-- Committing frames is a move. -/
theorem commitFrames_move (ticket : CommitTicket) (hbuilt : ∀ f ∈ frames, P.Built limits f) :
    Move P limits r (r.step hash (.commitFrames ticket frames)) := by
  dsimp only [step]
  rw [commitFramesLocked_outcome]
  cases hcall : r.gate.commitFrames hash ticket frames with
  | error e => exact Move.refl r
  | ok result =>
    obtain ⟨a, g⟩ := result
    cases frames with
    | nil =>
      dsimp only [submitted]
      rw [append_nil]
      exact .keep (commitFrames_empty hcall)
    | cons first rest => exact .assign (commitFrames_assigns hcall) hbuilt

/-- Closing a Cell is a move. -/
theorem closeCellIssuance_move (scope : CellLogScope) (base : CellRootRef) :
    Move P limits r (r.step hash (.closeCellIssuance scope base)) := by
  dsimp only [step]
  cases hcall : r.gate.closeCellIssuance scope base with
  | error e => exact Move.refl r
  | ok result =>
    obtain ⟨range, g⟩ := result
    simp only [closeCellIssuance, reject_bind_eq_ok, pure, Except.pure,
      ok.injEq, Prod.mk.injEq] at hcall
    obtain ⟨-, -, -, rfl, rfl⟩ := hcall
    exact .close scope base

/-- The other calls assign nothing. -/
theorem step_keep (hstep : r.step hash call = match GateRun.perform hash r.gate call with
      | .ok (g, _) => { r with gate := g }
      | .error _ => r)
    (hcommit : ∀ ticket frames, call ≠ .commitFrames ticket frames)
    (hclose : ∀ scope base, call ≠ .closeCellIssuance scope base) :
    Move P limits r (r.step hash call) := by
  rw [hstep]
  cases hcall : GateRun.perform hash r.gate call with
  | error e => exact Move.refl r
  | ok result => exact .keep (perform_same hcall hcommit hclose)

/-- The frames of the calls of a run are built. -/
def BuiltCall (P : Primitives) (limits : Limits) : GateCall → Prop
  | .commitFrames _ frames => ∀ f ∈ frames, P.Built limits f
  | _ => True

/-- Every call is one of the moves. -/
theorem step_move (hash : Hash) (r : IssuanceRun) (hbuilt : BuiltCall P limits call) :
    Move P limits r (r.step hash call) := by
  cases call with
  | commitFrames ticket frames => exact commitFrames_move ticket hbuilt
  | closeCellIssuance scope base => exact closeCellIssuance_move scope base
  | _ => exact step_keep rfl nofun nofun

/-! ## The history behind the maps of the gate -/

/-- The captures of a Cell, in order. -/
theorem capturesOf_append (scope : CellLogScope) (events events' : List IssuanceEvent) :
    capturesOf scope (events ++ events') = capturesOf scope events ++ capturesOf scope events' :=
  filterMap_append

/-- A capture is of its own Cell. -/
theorem capturesOf_assigned (c : Capture) (scope : CellLogScope) :
    capturesOf scope [.assigned c] = if c.scope = scope then [c] else [] := by
  unfold capturesOf
  by_cases h : c.scope = scope <;> simp [h]

/-- What a closure of a Cell has to return, and what happens to the Cell after it. -/
def ClosedFor (session : SessionId) (epoch : Nat) (scope : CellLogScope) (base : CellRootRef)
    (range : CellIssuedRange) (before after : List IssuanceEvent) : Prop :=
  range = ((capturesOf scope before).getLast?.map fun c =>
      issuedRange session epoch c.last).getD (baseRange session epoch scope base)
    ∧ capturesOf scope after = []

/-- How the maps of a gate stand for what it assigned and closed. -/
structure Inv (session : SessionId) (epoch : Nat) (r : IssuanceRun) : Prop where
  session_eq : r.gate.leaderSession = session
  epoch_eq : r.gate.logEpoch = epoch
  issued : ∀ scope, r.gate.cellIssued.lookup scope
    = (capturesOf scope r.events).getLast?.map fun c => issuedRange session epoch c.last
  below : ∀ scope, ∀ c ∈ capturesOf scope r.events, ∀ f ∈ c.frames,
    f.scope.nodeSequence < r.gate.nextSequence
  ordered : ∀ scope, ∀ c ∈ capturesOf scope r.events, c.Ordered
  precedes : ∀ scope, (capturesOf scope r.events).Pairwise Capture.Precedes
  closed : ∀ before scope base range after,
    r.events = before ++ .closed scope base range :: after →
      scope ∈ r.gate.closedCells ∧ ClosedFor session epoch scope base range before after

variable {session : SessionId} {epoch : Nat}

/-- Calls that assign nothing keep the invariant. -/
theorem Inv.keep (h : r.Inv session epoch) (same : r.gate.SameIssuance g) :
    Inv session epoch { r with gate := g } where
  session_eq := same.session.trans h.session_eq
  epoch_eq := same.epoch.trans h.epoch_eq
  issued scope := same.issued ▸ h.issued scope
  below scope c hc f hf := (h.below scope c hc f hf).trans_le same.next
  ordered := h.ordered
  precedes := h.precedes
  closed before scope base range after heq := by
    obtain ⟨hmem, hclosed⟩ := h.closed before scope base range after heq
    exact ⟨same.closed ▸ hmem, hclosed⟩

/-- Where an event stands in a history that one event was added to. -/
theorem append_singleton_eq {l before after : List α} (h : l ++ [x] = before ++ y :: after) :
    (∃ after', after = after' ++ [x] ∧ l = before ++ y :: after')
      ∨ after = [] ∧ x = y ∧ l = before := by
  rcases eq_nil_or_concat after with rfl | ⟨after', z, rfl⟩
  · obtain ⟨hl, hx⟩ := append_inj' h rfl
    exact Or.inr ⟨rfl, head_eq_of_cons_eq hx, hl⟩
  · rw [concat_eq_append, ← cons_append, ← append_assoc] at h
    obtain ⟨hl, hx⟩ := append_inj' h rfl
    rw [head_eq_of_cons_eq hx, concat_eq_append]
    exact Or.inl ⟨after', rfl, hl⟩

/-- An assignment keeps the invariant. -/
theorem Inv.assign (h : r.Inv session epoch) {c : Capture} (hassign : r.gate.Assigns c g)
    (built : ∀ f ∈ c.frames, P.Built limits f) :
    Inv session epoch ⟨g, r.events ++ [.assigned c]⟩ := by
  have hordered : c.Ordered :=
    ⟨hassign.sequences, hassign.chain, Capture.txids_of_chain hassign.chain built⟩
  have hprecedes : ∀ a ∈ capturesOf c.scope r.events, a.Precedes c := by
    refine Capture.precedes_of_advances hordered (h.precedes c.scope) (h.ordered c.scope)
      (fun a ha f hf => hassign.first ▸ h.below c.scope a ha f hf) fun a ha => ?_
    have hlookup := h.issued c.scope
    rw [ha] at hlookup
    exact hassign.advances _ hlookup
  have hmem : ∀ scope, ∀ a ∈ capturesOf scope (r.events ++ [.assigned c]),
      a ∈ capturesOf scope r.events ∨ a = c := by
    intro scope a ha
    rw [capturesOf_append, capturesOf_assigned, mem_append] at ha
    refine ha.imp_right fun ha => ?_
    split at ha
    · exact mem_singleton.1 ha
    · exact absurd ha not_mem_nil
  refine ⟨hassign.session.trans h.session_eq, hassign.epoch.trans h.epoch_eq, fun scope => ?_,
    fun scope a ha f hf => ?_, fun scope a ha => ?_, fun scope => ?_,
    fun before scope base range after heq => ?_⟩
  · dsimp only
    rw [hassign.issued, capturesOf_append, capturesOf_assigned, h.session_eq, h.epoch_eq]
    rcases eq_or_ne c.scope scope with rfl | hne
    · rw [AList.lookup_insert, if_pos rfl, getLast?_concat]
      rfl
    · rw [AList.lookup_insert_ne hne.symm, if_neg hne, append_nil, h.issued]
  · have hnext := hassign.next
    have hfirst := hassign.first
    dsimp only
    rcases hmem scope a ha with ha | rfl
    · have hlt := h.below scope a ha f hf
      have hle := (hordered.mem_sequences c.first_mem).1.trans
        (hordered.mem_sequences c.first_mem).2
      omega
    · have hle := (hordered.mem_sequences hf).2
      omega
  · rcases hmem scope a ha with ha | rfl
    · exact h.ordered scope a ha
    · exact hordered
  · rw [capturesOf_append, capturesOf_assigned]
    split
    · next hscope =>
      subst hscope
      refine pairwise_append.2 ⟨h.precedes _, pairwise_singleton _ _, fun a ha b hb => ?_⟩
      rw [mem_singleton.1 hb]
      exact hprecedes a ha
    · rw [append_nil]
      exact h.precedes scope
  · rcases append_singleton_eq heq with ⟨after', rfl, hevents⟩ | ⟨-, hevent, -⟩
    · obtain ⟨hclosed, hrange, hafter⟩ := h.closed before scope base range after' hevents
      refine ⟨hassign.closed ▸ hclosed, hrange, ?_⟩
      -- a capture of a closed Cell would have been refused
      have hne : c.scope ≠ scope := fun heq => hassign.isOpen (heq ▸ hclosed)
      rw [capturesOf_append, hafter, capturesOf_assigned, if_neg hne]
      rfl
    · cases hevent

/-- A closure keeps the invariant. -/
theorem Inv.close (h : r.Inv session epoch) (scope : CellLogScope) (base : CellRootRef) :
    Inv session epoch ⟨{ r.gate with closedCells := insert scope r.gate.closedCells },
      r.events ++ [.closed scope base ((r.gate.cellIssued.lookup scope).getD
        (baseRange r.gate.leaderSession r.gate.logEpoch scope base))]⟩ := by
  have hcaptures : ∀ scope' range, capturesOf scope' (r.events ++ [.closed scope base range])
      = capturesOf scope' r.events := by
    intro scope' range
    rw [capturesOf_append]
    exact append_nil _
  refine ⟨h.session_eq, h.epoch_eq, fun scope' => ?_, fun scope' => ?_, fun scope' => ?_,
    fun scope' => ?_, fun before scope' base' range after heq => ?_⟩
  · rw [hcaptures]
    exact h.issued scope'
  · rw [hcaptures]
    exact h.below scope'
  · rw [hcaptures]
    exact h.ordered scope'
  · rw [hcaptures]
    exact h.precedes scope'
  · rcases append_singleton_eq heq with ⟨after', rfl, hevents⟩ | ⟨rfl, hevent, -⟩
    · obtain ⟨hclosed, hrange, hafter⟩ := h.closed before scope' base' range after' hevents
      refine ⟨Finset.mem_insert_of_mem hclosed, hrange, ?_⟩
      rw [capturesOf_append, hafter]
      rfl
    · have hbefore := (append_inj' heq rfl).1
      cases hevent
      subst hbefore
      refine ⟨Finset.mem_insert_self scope _, ?_, rfl⟩
      rw [h.issued, h.session_eq, h.epoch_eq]

/-- Every move keeps the maps in step with the history. -/
theorem Move.inv (hmove : Move P limits r r') (h : r.Inv session epoch) : r'.Inv session epoch := by
  cases hmove with
  | keep same => exact h.keep same
  | assign hassign built => exact h.assign hassign built
  | close scope base => exact h.close scope base

/-- Every run keeps the maps in step with the history. -/
theorem run_inv (h : r.Inv session epoch)
    (hbuilt : ∀ call ∈ calls, BuiltCall P limits call) : (r.run hash calls).Inv session epoch := by
  induction calls generalizing r with
  | nil => exact h
  | cons call calls ih =>
    exact ih ((step_move hash r (hbuilt call mem_cons_self)).inv h)
      fun call hcall => hbuilt call (mem_cons_of_mem _ hcall)

/-- The invariant holds at the start. -/
theorem start_inv (i : Nat) (session : SessionId) (node : NodeId) (epoch : Nat)
    (members : List NodeId) : (start (.fresh i session node epoch members)).Inv session epoch where
  session_eq := rfl
  epoch_eq := rfl
  issued scope := rfl
  below scope c hc := nomatch hc
  ordered scope c hc := nomatch hc
  precedes scope := .nil
  closed before scope base range after heq := by
    cases before <;> cases heq

/-- In every run of a gate: a call that fails to commit frames changes nothing; each capture is one
range of node sequences and of transactions of one Cell; the captures of a Cell have increasing node
sequences, disjoint and increasing ranges of commands and increasing transactions; and a closure
returns the last range ever assigned to the Cell, or its base. -/
theorem cell_issuance (hash : Hash) (P : Primitives) (limits : Limits) {i : Nat}
    {session : SessionId} {node : NodeId} {epoch : Nat} {members : List NodeId} {g : GateState}
    (hnew : GateState.new i session node epoch members = .ok g) (calls : List GateCall)
    (hbuilt : ∀ call ∈ calls, BuiltCall P limits call) (r : IssuanceRun)
    (hr : r = (start g).run hash calls) :
    (∀ scope, (∀ c ∈ capturesOf scope r.events, c.Ordered)
        ∧ (capturesOf scope r.events).Pairwise Capture.Precedes)
      ∧ (∀ ticket frames e g',
          (commitFramesLocked hash ticket frames).outcome r.gate = (.error e, g') →
            g' = r.gate)
      ∧ ∀ before scope base range after,
          r.events = before ++ .closed scope base range :: after →
            ClosedFor session epoch scope base range before after := by
  simp only [GateState.new, reject_bind_eq_ok, pure, Except.pure, ok.injEq] at hnew
  obtain ⟨-, rfl⟩ := hnew
  have h : r.Inv session epoch := hr ▸ run_inv (start_inv i session node epoch members) hbuilt
  refine ⟨fun scope => ⟨h.ordered scope, h.precedes scope⟩, fun ticket frames e g' hfails => ?_,
    fun before scope base range after heq => (h.closed before scope base range after heq).2⟩
  rw [commitFramesLocked_outcome] at hfails
  cases hcall : r.gate.commitFrames hash ticket frames with
  | error e =>
    rw [hcall] at hfails
    exact (Prod.mk.inj hfails).2.symm
  | ok result =>
    rw [hcall] at hfails
    cases hfails

/-! ## A sample run -/

/-- The frame of a body at a sequence of the gate, with its commands. -/
def frameOf (sequence first last : Nat) (body : SegmentInput) (range : first ≤ last)
    (bound : last ≤ i64Max) : VerifiedNodeFrame where
  scope := { sampleScope with nodeSequence := sequence, commitSequence := last }
  firstCommitSequence := first
  segment := body.info
  body := body.bytes
  encoded := frameHeader { sampleScope with nodeSequence := sequence, commitSequence := last } first
    body.info body.bytes.length ++ body.bytes
  range := range
  bound := bound

/-- The body after the sample one, which overwrites its page. -/
def sampleNext : SegmentInput :=
  let pre := samplePrimitives.checksumPage 1 (samplePage 0)
  sampleSegment { sampleHeader with minTxid := 2, maxTxid := 2, preApplyChecksum := pre }
    (samplePage 1) (samplePrimitives.checksumPage 1 (samplePage 1))

/-- The sample frame as the first of a gate. -/
def sampleFrame : VerifiedNodeFrame := frameOf 1 5 7 sampleBody (by decide) (by decide)

/-- The frame of one more command. -/
def nextFrame : VerifiedNodeFrame := frameOf 2 8 8 sampleNext (by decide) (by decide)

/-- The encoder builds it, if the scope and the body pass its checks. -/
theorem frameOf_built {sequence first last : Nat} (range : first ≤ last) (bound : last ≤ i64Max)
    (hscope : validateScope (frameOf sequence first last body range bound).scope = .ok ())
    (hrange : validRange first last)
    (hvalid : samplePrimitives.validateBody body.bytes body.info sampleLimits = .ok ())
    (hlen : frameLength (frameOf sequence first last body range bound).scope first
      + body.bytes.length ≤ u64Max) :
    samplePrimitives.Built sampleLimits (frameOf sequence first last body range bound) :=
  .encoded (encode_eq_ok.2 ⟨hscope, hrange, hvalid, hlen, rfl, rfl, rfl, rfl, rfl⟩)

def sampleCapture : Capture := ⟨⟨.fill 16 1, 1, 1, 1⟩, sampleFrame, []⟩

def nextCapture : Capture := ⟨⟨.fill 16 1, 1, 2, 2⟩, nextFrame, []⟩

def sampleBase : CellRootRef :=
  ⟨sampleScope.cell, sampleScope.incarnation, .fill 32 0, ⟨0, 0⟩, 0⟩

/-- Two captures of a Cell, which is then closed. -/
def sampleCalls : List GateCall :=
  [.commitFrames sampleCapture.ticket sampleCapture.frames,
    .commitFrames nextCapture.ticket nextCapture.frames,
    .closeCellIssuance sampleCapture.scope sampleBase]

/-- The first capture of the sample Cell precedes the second. The closure returns the end of
that. -/
theorem cell_issuance_sample : ∃ range,
    ((start GateRun.sampleGate).run (fun _ => .fill 32 0) sampleCalls).events
        = [.assigned sampleCapture, .assigned nextCapture]
          ++ .closed sampleCapture.scope sampleBase range :: []
      ∧ sampleCapture.Precedes nextCapture
      ∧ ClosedFor (.fill 16 1) 1 sampleCapture.scope sampleBase range
          [.assigned sampleCapture, .assigned nextCapture] [] := by
  have hbuilt : ∀ call ∈ sampleCalls, BuiltCall samplePrimitives sampleLimits call := by
    simp only [sampleCalls, forall_mem_cons, BuiltCall]
    refine ⟨fun f hf => mem_singleton.1 hf ▸ frameOf_built _ _ ?_ ?_ ?_ ?_,
      fun f hf => mem_singleton.1 hf ▸ frameOf_built _ _ ?_ ?_ ?_ ?_, trivial, nofun⟩ <;>
      decide +kernel
  have hevents : ((start GateRun.sampleGate).run (fun _ => .fill 32 0) sampleCalls).events
      = [.assigned sampleCapture, .assigned nextCapture]
        ++ .closed sampleCapture.scope sampleBase (issuedRange (.fill 16 1) 1 nextFrame) :: [] := by
    rfl
  obtain ⟨hcaptures, -, hclosed⟩ := cell_issuance (fun _ => .fill 32 0) samplePrimitives
    sampleLimits
    (show GateState.new 1 (.fill 16 1) (.fill 16 2) 1 [.fill 16 3]
      = .ok GateRun.sampleGate from rfl)
    sampleCalls hbuilt _ rfl
  have hprecedes := (hcaptures sampleCapture.scope).2
  rw [hevents] at hprecedes
  exact ⟨_, hevents, rel_of_pairwise_cons hprecedes mem_cons_self, hclosed _ _ _ _ _ hevents⟩

end IssuanceRun

end Cellule
