import Cellule.Lib.Codec
import Cellule.Control.OwnerHistory

/-!
# The laws of a Cell's authority

Every call of the authority is safe, so its protocol holds in every world that any number of clients
can reach, whatever they observed, proposed or never heard back. The two theorems read off it the
laws of the stored control records and of the retained owners.
-/

namespace Cellule

open Interleave Cas List

/-- The store, the clients of every Cell's authority and the replies they got. -/
abbrev AuthorityWorld (ι T : Type) :=
  World ι (Op Key Bytes T (Label T) BundleCheck) (Ret Unit Error)
    (Store Key Bytes T (Label T)) (AuthorityReply T)

section
variable {J : ControlCodec} {T : Type}

/-- What a reply says of the store: a version it hands out was stored, a history it returns is
right. -/
structure AuthorityReply.Truthful (h : AuthorityHistory T) (r : AuthorityReply T) : Prop where
  seen : ∀ vc, r.shows vc → Seen h vc
  right : ∀ H, r = .history (.ok H) → H.Right h

/-- Every call of the authority is safe. -/
theorem authorityCode_safe {call : AuthorityCall T}
    (hseen : ∀ observed next kind, call = .transition observed next kind →
      Seen s.objects observed) :
    (authority J).regime.Safe (authorityCode J call) (fun r s' => r.Truthful s'.objects) s := by
  cases call with
  | createInitial cell incarnation owner code schema =>
    refine Regime.Safe.bind (createInitial_safe (fun vc s' hvc => ?_) fun e s' => ?_)
    · exact ⟨fun vc' h => by cases h; exact hvc, fun H h => nomatch h⟩
    · exact ⟨fun vc' h => (nomatch h), fun H h => nomatch h⟩
  | load cell =>
    refine Regime.Safe.bind (load_safe fun s' _ hi => ⟨?_, ?_⟩)
    · refine ⟨fun vc h => ?_, fun H h => nomatch h⟩
      obtain ⟨v, hv, hvc⟩ := Option.map_eq_some_iff.1 (Except.ok.inj h)
      have hvm := mem_of_mem_head? hv
      subst hvc
      exact ⟨v, ((hi.core.control cell).scope v hvm).2.symm ▸ hvm, rfl, rfl⟩
    · exact ⟨fun vc' h => (nomatch h), fun H h => nomatch h⟩
  | transition observed next kind =>
    refine Regime.Safe.bind (transition_safe (hseen _ _ _ rfl) (fun vc s' hvc => ?_) fun e s' => ?_)
    · exact ⟨fun vc' h => by cases h; exact hvc, fun H h => nomatch h⟩
    · exact ⟨fun vc' h => (nomatch h), fun H h => nomatch h⟩
  | ownerHistory cell limit =>
    refine Regime.Safe.bind (ownerHistory_safe (fun H s' hH => ?_) fun e s' => ?_)
    · exact ⟨fun vc' h => h.elim, fun H' h => by cases h; exact hH⟩
    · exact ⟨fun vc' h => h.elim, fun H' h => nomatch h⟩

/-- The authority keeps to its protocol. -/
theorem authority_keeps : Keeps (authorityService J) (authority J).regime
    (fun (r : AuthorityReply T) s => r.Truthful s.objects) where
  good_moves hr hle := ⟨fun vc hvc => (hr.seen vc hvc).le hle, fun H hH => (hr.right H hH).le hle⟩
  drift hi hd := hi.drift hd
  code {s known call} _ hknown hmay := by
    refine authorityCode_safe fun observed next kind hcall => ?_
    subst hcall
    obtain ⟨r, hr, hshows⟩ := hmay
    exact (hknown r hr).seen observed hshows

/-- What holds in every reachable world. -/
theorem authority_holds [DecidableEq ι] {w : AuthorityWorld ι T}
    (hw : (authorityService J).Reachable Store.empty w) :
    (authority J).Inv w.shared ∧ ∀ r ∈ w.replies, r.Truthful w.shared.objects := by
  have hstart : (authority J).Inv (Store.empty : Store Key Bytes T (Label T)) :=
    ⟨⟨fun _ => trivial, fun _ _ _ => ⟨fun v hv => (nomatch hv), .nil⟩⟩,
      fun _ v hv => (nomatch hv), fun q hq => hq.elim⟩
  have := authority_keeps.reachable hstart hw
  exact ⟨this.inv, this.replies⟩

end

/-! ## A run

A Cell is created by one client and taken over by another, which retains the first owner on the
way. The theorems below are applied to the world it ends in. -/

deriving instance Countable for RootRef, Owner, BundleBindingRef, RecoveryOverlayRef, ControlState,
  Control

namespace Sample

def cell : CellId := .fill 32 1

def incarnation : IncarnationId := .fill 16 2

/-- The bootstrap record of the first owner. -/
def created : Control where
  cell := cell
  incarnation := incarnation
  epoch := 1
  revision := 1
  progress := 1
  state := .recovering
  owner := some ⟨.fill 16 3, ['a']⟩
  root := none
  recovery := none
  bundleBinding := none
  code := .fill 32 5
  schema := 1
  nextDueMs := none

/-- The record of the second owner. -/
def taken : Control :=
  { created with epoch := 2, revision := 2, progress := 2, owner := some ⟨.fill 16 4, ['b']⟩ }

/-- A codec whose bodies of these two records are short. -/
noncomputable def codec : ControlCodec where
  toVec := Codec.print [created, taken]
  fromSlice bytes :=
    match Codec.read [created, taken] bytes with
    | some c => .ok c
    | none => .error .storage
  fromSlice_toVec c := by rw [Codec.read_print]

def create : AuthorityCall Nat :=
  .createInitial cell incarnation ⟨.fill 16 3, ['a']⟩ (.fill 32 5) 1

def takeover : AuthorityCall Nat := .transition ⟨created, 1⟩ taken .takeover

/-- A client's write takes effect and it is told so. -/
theorem step_write {i : Bool} (t : Nat)
    (run : w.clients i = some (.call (.write q) k)) (ha : Applies w.shared.objects q t h) :
    (authorityService codec).Step w { w with
      shared := ⟨h, insert q w.shared.sent⟩,
      clients := Function.update w.clients i (some (k (.ok t))) } :=
  .exec i run ⟨rfl, ha⟩

theorem reachable : ∃ w : AuthorityWorld Bool Nat,
    (authorityService codec).Reachable Store.empty w ∧
      (w.shared.objects (.control cell)).map recordOf = [taken, created] ∧
      (w.shared.objects (.owner cell incarnation 1)).map recordOf = [created] := by
  have r₁ := Relation.ReflTransGen.single (Service.Step.invoke (Y := authorityService codec)
    (w := World.start Store.empty) false create rfl trivial)
  have r₂ := r₁.tail (step_write (i := false) 1 rfl (.create rfl))
  have r₃ := r₂.tail (Service.Step.reply false rfl)
  have r₄ := r₃.tail (Service.Step.invoke true takeover rfl ⟨_, .inl rfl, rfl⟩)
  have r₅ := r₄.tail (Service.Step.exec true (r := Except.ok none) (s := ⟨_, _⟩) rfl
    ⟨rfl, fun x hx => by cases hx; rfl⟩)
  have r₆ := r₅.tail (step_write (i := true) 1 rfl (.create rfl))
  have r₇ := r₆.tail (step_write (i := true) 2 rfl (.update rfl rfl (by
    intro u hu ht
    have hu' : u ∈ [(⟨[], 1, .created created⟩ : Version Bytes Nat (Label Nat))] := hu
    rw [mem_singleton.1 hu'] at ht
    cases ht)))
  exact ⟨_, r₇, rfl, rfl⟩

end Sample

section
variable {J : ControlCodec} {T ι : Type} [DecidableEq ι] {w : AuthorityWorld ι T}

/-! ## The laws -/

/-- **The stored control history.** In every world that any number of clients reach by creating,
loading and transitioning, with any observed version and any proposed successor: every stored body
decodes; the epoch never goes back, the revision always grows, an epoch has one owner and a
tombstone is final; each record after the first was accepted from the one before it, by a client
that had observed that version, and opened an epoch only as a takeover or a tombstone; and no
request of a client that holds an older epoch can take effect any more. -/
theorem control_history_laws (hw : (authorityService J).Reachable Store.empty w) (cell : CellId) :
    (∀ v ∈ w.shared.objects (.control cell), J.decode v.body = .ok (recordOf v)) ∧
    (w.shared.objects (.control cell)).Pairwise (fun newer older =>
      (recordOf older).epoch ≤ (recordOf newer).epoch ∧
      (recordOf older).revision < (recordOf newer).revision ∧
      ((recordOf newer).epoch = (recordOf older).epoch → ∀ o o', (recordOf newer).owner = some o →
        (recordOf older).owner = some o' → o = o') ∧
      ((recordOf older).state = .tombstoned → (recordOf newer).state = .tombstoned)) ∧
    (∀ newer v u older, w.shared.objects (.control cell) = newer ++ v :: u :: older →
      ∃ k, v.label = .transition ⟨recordOf u, u.token⟩ (recordOf v) k ∧
        (recordOf u).validateTransition (recordOf v) k = .ok () ∧
        (recordOf v).epoch = (recordOf u).epoch +
          if k = .takeover ∨ k = .tombstone then 1 else 0) ∧
    (∀ v vs, w.shared.objects (.control cell) = v :: vs →
      ∀ body token observed next kind,
        .update (.control cell) body token (.transition observed next kind) ∈ w.shared.sent →
        observed.value.epoch < (recordOf v).epoch →
        ∀ t h, ¬ Applies w.shared.objects
          (.update (.control cell) body token (.transition observed next kind)) t h) := by
  obtain ⟨hi, -⟩ := authority_holds hw
  have hl := hi.core.control cell
  refine ⟨fun v hv => ControlCodec.decode_of_encode (hl.scope v hv).1, ?_,
    fun newer v u older heq => ?_, fun v vs hv body token observed next kind hq hlt t h ha => ?_⟩
  · refine hl.pairwise.imp fun {newer older} hb => ?_
    refine ⟨hb.epoch, hb.revision, fun he o o' ho ho' => ?_, hb.tombstoned⟩
    have hsame := hb.same_owner he (by rw [ho]; rfl)
    rw [ho, ho', Option.some.injEq] at hsame
    exact hsame
  · -- the history from this version back is a lineage too
    rw [heq] at hl
    have hl' : Lineage J w.shared.objects cell (v :: u :: older) := by
      clear heq
      induction newer with
      | nil => exact hl
      | cons x newer ih => exact ih hl.tail
    obtain ⟨k, hlab, -, hstep, -⟩ := hl'.link
    obtain ⟨-, -, n, k', hlab', hval, -⟩ := hl'
    rw [hlab, Label.transition.injEq] at hlab'
    obtain ⟨-, hn, hk⟩ := hlab'
    refine ⟨k, hlab, by rw [hn, hk]; exact hval, ?_⟩
    rw [hstep.epoch, Transition.opensEpoch]
    simp only [Bool.or_eq_true, beq_iff_eq]
  · -- a request that takes effect replaced the record its sender observed
    obtain ⟨o, n, k, hlab, hc, ht, -, -, hs, -⟩ := hi.just _ hq
    cases hlab
    cases ha with
    | update found same names =>
      rw [hv, cons.injEq] at found
      obtain ⟨rfl, rfl⟩ := found
      have hobs := hi.core.update_control (hi.tokens _) hv hc hs (same.trans ht.symm)
      rw [hobs] at hlt
      exact lt_irrefl _ hlt

/-- The laws at a world with two stored records, the second a takeover. -/
theorem control_history_laws_taken : ∃ w : AuthorityWorld Bool Nat,
    (authorityService Sample.codec).Reachable Store.empty w ∧
      (w.shared.objects (.control Sample.cell)).map recordOf = [Sample.taken, Sample.created] ∧
      (w.shared.objects (.control Sample.cell)).Pairwise fun newer older =>
        (recordOf older).revision < (recordOf newer).revision := by
  obtain ⟨w, hw, hcontrol, -⟩ := Sample.reachable
  exact ⟨w, hw, hcontrol, (control_history_laws hw Sample.cell).2.1.imp fun h => h.2.1⟩

/-- **The owner history is complete.** In every world that any number of clients reach, an owner of
the stored history that is no longer the current one has a retained observation of its epoch; a
retained observation was only replaced by one of a larger revision of the same epoch and owner;
`owner_history` returns the retained observation of every closed epoch, in order, and then the
current owner, unless its row limit is too small; and a history that any client was returned,
whatever was written meanwhile, has one row for each epoch that had an owner, in order. -/
theorem owner_history_complete (hw : (authorityService J).Reachable Store.empty w) (cell : CellId) :
    (∀ v vs, w.shared.objects (.control cell) = v :: vs → ∀ u ∈ v :: vs, ∀ o,
      (recordOf u).owner = some o →
      ((recordOf v).epoch ≠ (recordOf u).epoch ∨ (recordOf v).owner ≠ some o) →
      ∃ x xs, w.shared.objects (.owner cell (recordOf u).incarnation (recordOf u).epoch) = x :: xs ∧
        J.decode x.body = .ok (recordOf x) ∧ (recordOf x).epoch = (recordOf u).epoch ∧
        (recordOf x).owner = some o) ∧
    (∀ incarnation epoch, (w.shared.objects (.owner cell incarnation epoch)).Pairwise
      fun newer older => (recordOf older).revision < (recordOf newer).revision ∧
        (recordOf newer).epoch = (recordOf older).epoch ∧
        (recordOf newer).owner = (recordOf older).owner) ∧
    (∀ v vs, w.shared.objects (.control cell) = v :: vs → ∀ limit, limit ≠ 0 →
      (recordOf v).ownerCount ≤ limit →
      ∃ rows, quiet w.shared.objects (ownerHistory J cell limit : AuthorityCode T _).run =
          some (.ok ⟨recordOf v, if (recordOf v).owner.isSome then rows ++ [recordOf v] else rows⟩)
            ∧
        List.Forall₂ (fun epoch row =>
          (w.shared.objects (.owner cell (recordOf v).incarnation epoch)).head?.map recordOf =
            some row ∧ row.epoch = epoch ∧ row.owner.isSome)
          (List.range' 1 (recordOf v).closedEpochs) rows) ∧
    (∀ H, .history (.ok H) ∈ w.replies →
      H.owners.map (·.epoch) = List.range' 1 H.current.ownerCount ∧
      ∀ c ∈ H.owners, c.owner.isSome ∧
        ∃ v ∈ w.shared.objects (.control c.cell), recordOf v = c) := by
  obtain ⟨hi, hreplies⟩ := authority_holds hw
  have hk := hi.core
  refine ⟨fun v vs hv u hu o ho hgone => ?_, fun incarnation epoch => ?_,
    fun v vs hv limit hlimit hcount => ?_, fun H hH => ?_⟩
  · have hl := hk.control cell
    rw [hv] at hl
    rcases hl.departed hu (by rw [ho]; rfl) with ⟨hep, hown⟩ | ⟨x, hx, hxo⟩
    · rw [ho] at hown
      exact (hgone.elim (· hep) (· hown)).elim
    · have hobs := hk.owner cell (recordOf u).incarnation (recordOf u).epoch
      cases hxs : w.shared.objects (.owner cell (recordOf u).incarnation (recordOf u).epoch) with
      | nil => rw [hxs] at hx; cases hx
      | cons y ys =>
        -- the current observation names the same owner as any older one
        rw [hxs] at hobs
        obtain ⟨hst, -, -, -, hep⟩ := hobs.1 y (mem_cons_self ..)
        refine ⟨y, ys, rfl, ControlCodec.decode_of_encode hst, hep, ?_⟩
        have hcell := (hl.scope u hu).2
        have hu' : Observed w.shared.objects (recordOf u) :=
          ⟨by rw [ho]; rfl, u, by rw [hcell, hv]; exact hu, rfl⟩
        rw [← hcell] at hxs
        rw [(hk.observation hu' (hxs ▸ mem_cons_self ..)).1, ho]
  · have hobs := hk.owner cell incarnation epoch
    refine hobs.2.imp_of_mem fun {newer older} hn hm hlt => ⟨hlt, ?_, ?_⟩
    · exact (hobs.1 newer hn).2.2.2.2.trans (hobs.1 older hm).2.2.2.2.symm
    · obtain ⟨-, ho, hcell, hinc, hep⟩ := hobs.1 older hm
      rw [← hcell, ← hinc, ← hep] at hn
      exact (hk.observation ho hn).1
  · obtain ⟨rows, hrun, hall⟩ := quiet_ownerHistory hk hv hlimit hcount
    refine ⟨rows, hrun, hall.imp fun epoch row hrow => ⟨hrow, ?_⟩⟩
    obtain ⟨⟨ho, -⟩, -, -, hep⟩ := hk.row hrow
    exact ⟨hep, ho⟩
  · have hright := (hreplies _ hH).right H rfl
    exact ⟨hright.epochs, fun c hc => (hright.rows c hc).1⟩

/-- The owner that was taken over from is retained, and the history has both owners. -/
theorem owner_history_complete_taken : ∃ w : AuthorityWorld Bool Nat,
    (authorityService Sample.codec).Reachable Store.empty w ∧
      quiet w.shared.objects (ownerHistory Sample.codec Sample.cell 2 : AuthorityCode Nat _).run =
        some (.ok ⟨Sample.taken, [Sample.created, Sample.taken]⟩) := by
  obtain ⟨w, hw, hcontrol, howner⟩ := Sample.reachable
  refine ⟨w, hw, ?_⟩
  obtain ⟨v, vs, hv, hrec, -⟩ := map_eq_cons_iff.1 hcontrol
  obtain ⟨rows, hrun, hrows⟩ := (owner_history_complete hw Sample.cell).2.2.1 v vs hv 2
    (by decide) (by rw [hrec]; decide)
  rw [hrec] at hrun hrows
  obtain ⟨row, hrow, hnil⟩ : ∃ row, (w.shared.objects
    (.owner Sample.cell Sample.incarnation 1)).head?.map
      recordOf = some row ∧ rows = [row] := by
    cases hrows with
    | cons h hrest => cases hrest; exact ⟨_, h.1, rfl⟩
  rw [← head?_map, howner, head?_cons, Option.some.injEq] at hrow
  rw [hrun, hnil, ← hrow]
  rfl

end

end Cellule
