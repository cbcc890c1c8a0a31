import Cellule.Cell.Release

/-!
# The moves of an executor's calls

Every call of an executor makes one of the moves of `Release`, whichever way it ends: those that
commit push an entry or leave the queue, reads and hydration leave it, and those that bind, confirm
or release make their own move or none. `perform_served` collects them.
-/

namespace Cellule

open Stateful List Except Option

namespace CellExecutor

variable {App Proof Checkpoint Capture : Type} {x x' : CellExecutor App Proof Checkpoint}

/-! ## Calls that leave the queue -/

/-- Nothing changed. -/
theorem Idle.refl (x : CellExecutor App Proof Checkpoint) : Idle x x :=
  ⟨rfl, rfl, rfl, id, fun _ => rfl⟩

/-- A call that fences, whatever it did to the database. -/
theorem Idle.fenceWith (x : CellExecutor App Proof Checkpoint) (db' : CellDb App) :
    Idle x (fence { x with db := db' }) :=
  ⟨rfl, rfl, rfl, fun _ => rfl, nofun⟩

/-- An idle call is a move. -/
theorem Idle.move (h : Idle x x') : Move x .none x' := .idle h nofun

variable {α : Type} {storage : Storage} {r : Result CommandExecution} {hooks : Hooks App}
  {now : Int} {env : Env App Proof Checkpoint Capture} {call : Call App Proof Checkpoint Capture}

/-- A refused transaction is idle. -/
theorem Refused.idle {operation : CellDb App → Result α × Txn App}
    (h : Refused operation x x') : Idle x x' := by
  rcases h with rfl | ⟨db', -, rfl⟩
  · exact .refl x'
  · exact .fenceWith x db'

/-- A declined call is idle. -/
theorem Declined.idle {r : Result α} (h : Declined x x' r) : Idle x x' := by
  obtain ⟨rfl, -⟩ := h
  exact .refl x'

/-- A read changes nothing. -/
theorem readWith_ends (storage : ReadStorage) (handler : CellDb App → Result α) :
    (readWith storage handler).Ends x (fun _ x' => x' = x) (Idle x) := by
  unfold readWith
  split
  · exact .fenceWith x x.db
  · split
    · exact .fenceWith x x.db
    · rw [ends_bind, ends_look]
      exact .lift (fun _ _ => rfl) (.refl x)

/-- A query leaves the executor as it was, or fences it. -/
theorem query_ends (storage : ReadStorage) (limit : Nat) (handler : CellDb App → Result Bytes) :
    (query storage limit handler).Ends x
      (fun _ x' => x' = x ∧ x.fenced = false ∧ x.logicalHeadIsDurable = true) (Idle x) := by
  unfold query
  refine .look_bind (.reject_bind (fun _ => .refl x) fun hfenced => ?_)
  refine .reject_bind (fun _ => .refl x) fun hdurable => ?_
  refine .reject_bind (fun _ => .refl x) fun _ => ?_
  rw [ends_bind]
  refine (readWith_ends storage handler).mono (fun _ x' hx' => ?_) fun _ h => h
  subst hx'
  refine .reject_bind (fun _ => .refl x') fun _ => ?_
  exact ends_pure.2 ⟨rfl, hfenced, by simpa using hdurable⟩

/-- What a read of the ledger or of the inbox tells of the executor. -/
def Answered (x x' : CellExecutor App Proof Checkpoint) (resolution : Resolution) : Prop :=
  x' = x ∧ (resolution = .unknown ∨ x.fenced = false ∧ x.logicalHeadIsDurable = true)

/-- What resolving a request answers. -/
theorem resolve_ends (storage : ReadStorage) (identity : MutationIdentity)
    (operationDigest : Digest) (now : Int) (limit : Nat) :
    (resolve storage identity operationDigest now limit).Ends x (fun r x' => Answered x x' r)
      (Idle x) := by
  unfold resolve
  rw [ends_bind, ends_look]
  split
  · exact ends_pure.2 ⟨rfl, .inl rfl⟩
  next hopen =>
  have hopen : x.fenced = false ∧ x.logicalHeadIsDurable = true := by simpa using hopen
  unfold resolveDurable
  refine .lift_bind (fun expired _ => ?_) (.refl x)
  split
  · exact ends_pure.2 ⟨rfl, .inr hopen⟩
  unfold resolveLive
  refine .reject_bind (fun _ => .refl x) fun _ => ?_
  rw [ends_bind]
  refine (readWith_ends storage _).mono (fun row x' hx' => ?_) fun _ h => h
  subst hx'
  exact .lift (fun _ _ => ⟨rfl, .inr hopen⟩) (.refl x')

/-- What resolving an effect answers. -/
theorem resolveEffect_ends (storage : ReadStorage) (delivery : InboxDelivery) (now : Int)
    (limit : Nat) :
    (resolveEffect storage delivery now limit).Ends x (fun r x' => Answered x x' r) (Idle x) := by
  unfold resolveEffect
  rw [ends_bind, ends_look]
  split
  · exact ends_pure.2 ⟨rfl, .inl rfl⟩
  next hopen =>
  have hopen : x.fenced = false ∧ x.logicalHeadIsDurable = true := by simpa using hopen
  exact (readWith_ends storage _).mono (fun _ x' hx' => ⟨hx', .inr hopen⟩) fun _ h => h

/-- Preparing a hydration changes nothing. -/
theorem prepareHydration_ends (answer : Result α) (pages : Nat) :
    (prepareHydration answer pages).Ends x (fun _ x' => x' = x ∧ x.fenced = false) (Idle x) := by
  unfold prepareHydration
  refine .look_bind (.reject_bind (fun _ => .refl x) fun hfenced => ?_)
  refine .reject_bind (fun _ => .refl x) fun _ => ?_
  exact .lift (fun _ _ => ⟨rfl, hfenced⟩) (.refl x)

/-- Installing a hydration changes nothing. -/
theorem installHydration_ends (answer : Result α) :
    (installHydration answer).Ends x (fun _ x' => x' = x ∧ x.fenced = false) (Idle x) := by
  unfold installHydration
  refine .look_bind (.reject_bind (fun _ => .refl x) fun hfenced => ?_)
  split
  · exact ends_pure.2 ⟨rfl, hfenced⟩
  · exact .fenceWith x x.db

/-! ## Calls that commit -/

/-- A transaction answers from a row without a change, or commits under the next sequence. -/
def Advances (operation : CellDb App → Result TransactionResult × Txn App) (db : CellDb App) :
    Prop :=
  ∀ result db', operation db = (.ok result, .opened db') → match result with
    | .recorded _ => db' = db
    | .committed o _ _ => db.sysMeta.commitSequence < o.commitSequence ∧
        o.commitSequence = db'.sysMeta.commitSequence

/-- A command keeps the sequence or takes the next one. -/
theorem applyMutation_advances (site : Site App) (command : NativeCommand App) (db : CellDb App) :
    Advances (fun db => (applyMutation site command).outcome (.opened db)) db := by
  intro result db' h
  rcases (applyMutation_ok h).2.2 with ⟨o, rfl, htxn, -⟩
    | ⟨o, t, due, left, d, after, rfl, htxn, hc, -⟩
  · exact Txn.opened.inj htxn
  · obtain rfl := Txn.opened.inj htxn
    dsimp only
    rw [hc.outcome, hc.left, Verdict.stored_commitSequence]
    exact ⟨Nat.lt_succ_self _, rfl⟩

/-- A delivery keeps the sequence or takes the next one. -/
theorem deliverMutation_advances (site : Site App) (now : Int) (delivery : InboxDelivery)
    (limit : Nat) (handler : Handler App) (db : CellDb App) :
    Advances (fun db => (deliverMutation site now delivery limit handler).outcome (.opened db))
      db := by
  intro result db' h
  rcases (deliverMutation_ok h).2 with ⟨o, rfl, htxn, -⟩
    | ⟨o, due, applied, d, after, rfl, htxn, hd⟩
  · exact Txn.opened.inj htxn
  · obtain rfl := Txn.opened.inj htxn
    dsimp only
    rw [hd.outcome, Verdict.stored_commitSequence]
    exact ⟨Nat.lt_succ_self _, rfl⟩

/-- What work on the database does: it makes a move, a fence refuses it, and a reply that tells of
the rows needs a head that accepts a publication. -/
structure Works (x : CellExecutor App Proof Checkpoint) (tells : α → Bool) (r : Result α)
    (x' : CellExecutor App Proof Checkpoint) : Prop where
  move : Move x .none x'
  refused : x.fenced = true → ∃ e, r = .error e
  told : ∀ a, r = .ok a → tells a = true → x.acceptsPublication = true

/-- A declined call works. -/
theorem Declined.works {r : Result α} (h : Declined x x' r) : Works x tells r x' := by
  obtain ⟨e, rfl⟩ := h.2
  exact ⟨h.idle.move, fun _ => ⟨e, rfl⟩, nofun⟩

/-- A move on an open executor. -/
theorem Works.of_open {r : Result α} (hfenced : x.fenced = false)
    (haccepts : x.acceptsPublication = true) (hmove : Move x .none x') : Works x tells r x' :=
  ⟨hmove, fun hx => (nomatch hfenced.symm.trans hx), fun _ _ _ => haccepts⟩

/-- A transaction of its own: its commit joins the queue, or the queue stays. -/
theorem finished_move (hunfenced : x.fenced = false) (hadvances : Advances operation x.db)
    (h : (transact storage operation >>=
      finishTransaction storage.ioError storage.capture).outcome x = (r, x')) :
    Move x .none x' := by
  rcases finished_cases h with ⟨e, rfl, hrefused⟩ | ⟨o, db', hop, rfl, rfl⟩ |
    ⟨o, t, due, db', cuts, hop, rfl, rfl⟩
  · exact hrefused.idle.move
  · obtain rfl := hadvances _ _ hop
    exact (Idle.refl x).move
  · obtain ⟨hlater, hhead⟩ := hadvances _ _ hop
    exact .push hunfenced hlater hhead rfl rfl

/-- A command works. -/
theorem execute_works
    (h : (execute hooks storage command).outcome x = (r, x')) : Works x tells r x' := by
  rcases execute_cases h with hdeclined | ⟨hfenced, haccepts, hrun⟩
  · exact hdeclined.works
  · exact .of_open hfenced haccepts (finished_move hfenced (applyMutation_advances _ _ _) hrun)

/-- A delivery works. -/
theorem deliverEffect_works
    (h : (deliverEffect hooks storage delivery now limit handler).outcome x = (r, x')) :
    Works x tells r x' := by
  rcases deliverEffect_cases h with hdeclined | ⟨hfenced, haccepts, hrun⟩
  · exact hdeclined.works
  · exact .of_open hfenced haccepts
      (finished_move hfenced (deliverMutation_advances _ _ _ _ _ _) hrun)

/-- A group works. -/
theorem executeGroup_works {late : Nat → Bool} {r : Result NativeGroupExecution}
    (h : (executeGroup rules hooks storage late commands).outcome x = (r, x')) :
    Works x tells r x' := by
  rcases executeGroup_cases h with hdeclined | ⟨hfenced, haccepts, hrun⟩
  · exact hdeclined.works
  refine .of_open hfenced haccepts ?_
  rcases hrun with ⟨e, -, hrefused⟩ | ⟨group, -, -, hopen, hrun⟩
  · exact hrefused.idle.move
  · have hhead := serially_head hopen
    split at hrun
    · next hlast =>
      rw [hlast] at hhead
      rw [hrun.2, hhead]
      exact (Idle.refl x).move
    · next o t due hlast =>
      rw [hlast] at hhead
      obtain ⟨cuts, -, rfl⟩ := hrun
      exact .push hfenced hhead.1 hhead.2 rfl rfl

/-- The transaction of a migration commits under the next sequence. -/
theorem migrationBody_ok {site : Site App} {db db' : CellDb App} {sequence : Nat}
    (h : (migrationBody sqlite site plan now).outcome (.opened db)
      = (.ok (sequence, due), .opened db')) :
    sequence = db.sysMeta.commitSequence + 1 ∧ db'.sysMeta.commitSequence = sequence := by
  unfold migrationBody at h
  rw [outcome_view_bind] at h
  obtain ⟨m, hmeta, h⟩ := outcome_lift_bind_ok.1 h
  obtain ⟨rfl, -⟩ := CellDb.runtimeMetadata_ok hmeta
  dsimp only at h
  obtain ⟨n, hseq, h⟩ := outcome_lift_bind_ok.1 h
  obtain rfl := nextSequence_ok hseq
  rw [outcome_bind] at h
  split at h
  swap
  · cases h
  next txn _ =>
  cases txn with
  | ended stray => cases h
  | opened left =>
    rw [outcome_view_bind] at h
    obtain ⟨-, h⟩ := outcome_rejectWhen_bind_ok.1 h
    rw [outcome_write_bind, outcome_view_bind] at h
    obtain ⟨stored, -, h⟩ := outcome_lift_bind_ok.1 h
    obtain ⟨-, h⟩ := outcome_rejectWhen_bind_ok.1 h
    obtain ⟨_, -, h⟩ := outcome_lift_bind_ok.1 h
    obtain ⟨due', -, h⟩ := outcome_lift_bind_ok.1 h
    rw [outcome_pure, Prod.mk.injEq] at h
    obtain ⟨hresult, htxn⟩ := h
    obtain rfl := Txn.opened.inj htxn
    obtain ⟨rfl, -⟩ := Prod.mk.inj (ok.inj hresult)
    exact ⟨rfl, rfl⟩

/-- Without anything pending there is no migration. -/
theorem hasPending_eq_false (h : x.hasPending = false) : x.pendingMigration = none := by
  unfold hasPending at h
  simp only [Bool.or_eq_false_iff] at h
  exact not_isSome_iff_eq_none.1 (by simp [h.1.2])

/-- A migration works and tells nothing. -/
theorem migrate_works {hash : Hash} {r : Result Unit}
    (h : (migrate sqlite hash hooks storage plan now).outcome x = (r, x')) :
    Works x (fun _ => false) r x' := by
  unfold migrate at h
  rw [outcome_look_bind] at h
  rcases outcome_rejectWhen_bind_cases h with ⟨rfl, hr⟩ | ⟨hfenced, h⟩
  · exact ⟨(Idle.refl x').move, fun _ => ⟨_, hr⟩, nofun⟩
  refine ⟨?_, fun hx => (nomatch hfenced.symm.trans hx), nofun⟩
  rcases outcome_rejectWhen_bind_cases h with ⟨rfl, -⟩ | ⟨hpending, h⟩
  · exact (Idle.refl x').move
  rcases outcome_rejectWhen_bind_cases h with ⟨rfl, -⟩ | ⟨-, h⟩
  · exact (Idle.refl x').move
  rcases transactChecked_cases h with ⟨e, -, hrefused⟩ | ⟨⟨sequence, due⟩, db', hop, hrun⟩
  · exact hrefused.idle.move
  obtain ⟨rfl, hhead⟩ := migrationBody_ok hop
  dsimp only at hrun
  unfold finishMigration at hrun
  split at hrun
  · rw [← (Prod.mk.inj hrun).2]
    exact (Idle.fenceWith x db').move
  · split at hrun
    · rw [← (Prod.mk.inj hrun).2]
      exact (Idle.fenceWith x db').move
    · rw [← (Prod.mk.inj hrun).2]
      exact .migrate hfenced (hasPending_eq_false hpending) (Nat.lt_succ_self _) hhead.symm rfl

/-! ## Calls that bind and confirm -/

/-- A list around the index that a search found. -/
theorem findIdx?_split (h : l.findIdx? p = some i) :
    ∃ a, p a = true ∧ l = l.take i ++ a :: l.drop (i + 1) ∧
      ∀ f : α → α, l.modify i f = l.take i ++ f a :: l.drop (i + 1) := by
  obtain ⟨hi, hp, -⟩ := findIdx?_eq_some_iff_getElem.1 h
  refine ⟨l[i], hp, ?_, fun f => modify_eq_take_cons_drop hi⟩
  rw [cons_getElem_drop_succ, take_append_drop]

/-- Binding a migration is a move. -/
theorem bindMigrationPrepared_ends (prepared : PreparedRoot) :
    (bindMigrationPrepared prepared).Ends x (fun _ => Move x .none) (Idle x) := by
  unfold bindMigrationPrepared
  rw [ends_bind, ends_look]
  split
  · exact .refl x
  next m hm =>
  refine .reject_bind (fun _ => .refl x) fun hmatches => ?_
  simp only [Bool.or_eq_false_iff, bne_eq_false_iff_eq] at hmatches
  exact .bindMigration hm hmatches.1.1.2

/-- Publishing a migration covers its sequence. -/
theorem confirmMigrationPublished_ends (prune : CaptureBatch → Result Unit) (root : CellRootRef) :
    (confirmMigrationPublished prune root).Ends x
      (fun _ => Move x (.covered root.commitSequence)) (Idle x) := by
  unfold confirmMigrationPublished
  rw [ends_bind, ends_look]
  split
  · exact .refl x
  next m hm =>
  refine .reject_bind (fun _ => .refl x) fun hroot => ?_
  rw [ends_bind]
  exact .lift (fun _ _ => .publishMigration hm (bne_eq_false_iff_eq.1 hroot)) (.refl x)

/-- A durability proof marks its commit. -/
theorem confirmDurable_ends (rules : BundleRules Proof Checkpoint Capture) (n : Nat) :
    (confirmDurable rules n).Ends x (fun _ => Move x (.durable n)) (Idle x) := by
  unfold confirmDurable
  rw [ends_bind, ends_look]
  split
  · exact .idle (.refl x) nofun
  split
  · exact .refl x
  next i hi =>
  refine .reject_bind (fun _ => .refl x) fun hearlier => ?_
  obtain ⟨p, hp, hsplit, hmodify⟩ := findIdx?_split hi
  rw [ends_change, hmodify, ← eq_of_beq hp]
  refine .durable hsplit fun q hq => ?_
  simpa using any_eq_false.1 hearlier q hq

/-- Binding a commit is a move. -/
theorem bindPrepared_ends (prepared : PreparedRoot) :
    (bindPrepared prepared).Ends x (fun _ => Move x .bound) (Idle x) := by
  unfold bindPrepared
  rw [ends_bind, ends_look]
  split
  · exact .refl x
  next front rest hpending =>
  refine .reject_bind (fun _ => .refl x) fun _ => .bind ?_
  rw [hpending]
  exact .cons (.inr ⟨prepared.root, rfl⟩) (forall₂_same.2 fun _ _ => .inl rfl)

/-- The loop binds entries, and stops where it fails. -/
theorem bindCovered_rebound (root : CellRootRef) (pending : List PendingCommit) :
    List.Forall₂ Rebound pending (bindCovered root pending).1 := by
  induction pending with
  | nil => exact .nil
  | cons p rest ih =>
    unfold bindCovered
    split
    · exact .cons (.inl rfl) ih
    · split
      · exact forall₂_same.2 fun _ _ => .inl rfl
      · exact .cons (.inr ⟨root, rfl⟩) ih

/-- Binding all covered commits is a move, even where it fails. -/
theorem bindPreparedAll_ends (prepared : PreparedRoot) (mergedPosition : Position) :
    (bindPreparedAll prepared mergedPosition).Ends x (fun _ => Move x .bound) (Move x .bound) := by
  have hidle : Move x .bound x := .idle (.refl x) nofun
  unfold bindPreparedAll
  rw [ends_bind, ends_look]
  split
  · exact hidle
  refine .reject_bind (fun _ => hidle) fun _ => ?_
  rw [ends_bind, ends_change]
  split
  all_goals exact .bind (bindCovered_rebound prepared.root x.pending)

/-! ## Calls that release -/

/-- Entries whose bytes were counted leave without an underflow. -/
theorem releaseAll_outcome (underflow : Error) (h : retainedSum taken ≤ x.pendingBytes) :
    (releaseAll underflow taken).outcome x
      = (.ok (taken.map (·.outcome)),
        { x with pendingBytes := x.pendingBytes - retainedSum taken }) := by
  induction taken generalizing x with
  | nil => rfl
  | cons p rest ih =>
    have hsum : retainedSum (p :: rest) = p.retainedBytes + retainedSum rest := by
      simp [retainedSum]
    rw [hsum] at h ⊢
    unfold releaseAll
    rw [outcome_look_bind, outcome_rejectWhen_bind, if_neg (by simp; omega),
      outcome_change_bind, outcome_bind,
      ih (show retainedSum rest ≤ x.pendingBytes - p.retainedBytes by omega)]
    simp only [Nat.sub_sub, map_cons]
    rfl

/-- A part of the queue retains no more. -/
theorem retainedSum_take_le (n : Nat) (pending : List PendingCommit) :
    retainedSum (pending.take n) ≤ retainedSum pending := by
  conv_rhs => rw [← take_append_drop n pending, ReleaseState.retainedSum_append]
  exact Nat.le_add_right _ _

/-- A list up to and with one of its elements. -/
theorem take_succ_of_split (h : l = l.take i ++ a :: l.drop (i + 1)) :
    l.take (i + 1) = l.take i ++ [a] := by
  have hparts : l.take i ++ [a] ++ l.drop (i + 1) = l.take (i + 1) ++ l.drop (i + 1) := by
    rw [append_assoc, singleton_append, ← h, take_append_drop]
  exact (append_cancel_right hparts).symm

/-- Captures that pass are of unbound commits. -/
theorem verifyCaptures_ok {selected : Proof}
    {pending : List PendingCommit} (h : verifyCaptures rules x selected pending captures = .ok ()) :
    ∀ p ∈ pending.take captures.length, p.prepared = none := by
  induction pending generalizing captures with
  | nil => exact fun p hp => nomatch take_nil ▸ hp
  | cons q rest ih =>
    cases captures with
    | nil => exact nofun
    | cons capture captures =>
      unfold verifyCaptures at h
      obtain ⟨howner, h⟩ := reject_bind_eq_ok.1 h
      obtain ⟨_, -, h⟩ := bind_eq_ok.1 h
      intro p hp
      rw [length_cons, take_succ_cons] at hp
      rcases mem_cons.1 hp with rfl | hp
      · exact isSome_eq_false_iff.1 (Bool.or_eq_false_iff.1 howner).1 |> isNone_iff_eq_none.1
      · exact ih h p hp

section
variable (hbytes : x.pendingBytes = retainedSum x.pending)
  (rules : BundleRules Proof Checkpoint Capture) (prune : CaptureBatch → Result Unit)
include hbytes

/-- The first entries leave the queue: what follows starts without them and their bytes. -/
theorem dropped_ends (n : Nat) (underflow : Error)
    (h : (f ((x.pending.take n).map (·.outcome))).Ends
      { x with pending := x.pending.drop n
               pendingBytes := x.pendingBytes - retainedSum (x.pending.take n) } post failed) :
    (change (fun x => { x with pending := x.pending.drop n }) >>= fun _ =>
      releaseAll underflow (x.pending.take n) >>= f).Ends x post failed := by
  have hfits : retainedSum (x.pending.take n)
      ≤ ({ x with pending := x.pending.drop n } : CellExecutor App Proof Checkpoint).pendingBytes :=
    hbytes ▸ retainedSum_take_le n x.pending
  unfold Ends at h ⊢
  rw [outcome_change_bind, outcome_bind, releaseAll_outcome underflow hfits]
  exact h

/-- A root that is published releases every entry up to the one it was made for. -/
theorem confirmPublishedRange_ends (root : CellRootRef) :
    (confirmPublishedRange rules prune root).Ends x
      (fun outcomes x' => Move x (.released root.commitSequence root outcomes) x' ∧
        ∃ i, x.pending.findIdx? (·.outcome.commitSequence == root.commitSequence) = some i ∧
          outcomes = (x.pending.take (i + 1)).map (·.outcome)) (Idle x) := by
  unfold confirmPublishedRange
  rw [ends_bind, ends_look]
  split
  · exact .refl x
  next i hi =>
  refine .reject_bind (fun _ => .refl x) fun hprepared => ?_
  refine .lift_bind (fun _ _ => dropped_ends hbytes (i + 1) _ ⟨?_, i, hi, rfl⟩) (.refl x)
  obtain ⟨p, hp, hsplit, -⟩ := findIdx?_split hi
  have htake := take_succ_of_split hsplit
  rw [htake, ← eq_of_beq hp]
  refine .release hsplit (fun q hq => ?_) rfl rfl rfl rfl rfl
  rw [← htake] at hq
  simpa using any_eq_false.1 hprepared q hq

/-- A root that is published for the front entry releases exactly that one. -/
theorem confirmPublished_ends (root : CellRootRef) :
    (confirmPublished rules prune root).Ends x
      (fun outcome => Move x (.released root.commitSequence root [outcome])) (Idle x) := by
  unfold confirmPublished
  refine .look_bind (.reject_bind (fun _ => .refl x) fun hfront => ?_)
  rw [ends_bind]
  refine (confirmPublishedRange_ends hbytes rules prune root).mono ?_ fun _ h => h
  rintro outcomes x' ⟨hmove, i, hi, houtcomes⟩
  rcases hpending : x.pending with _ | ⟨front, rest⟩
  · rw [hpending] at hi
    cases hi
  · have hseq : (front.outcome.commitSequence == root.commitSequence) = true := by
      simpa [hpending] using hfront
    rw [hpending, findIdx?_cons, if_pos hseq] at hi
    obtain rfl := some.inj hi
    rw [hpending] at houtcomes
    subst houtcomes
    exact hmove

/-- The receipt of a bundle releases as many entries as it has captures. -/
theorem releaseBundleCaptures_ends (captures : List Capture) :
    (releaseBundleCaptures rules prune captures).Ends x
      (fun outcomes x' => ∃ newest, captures.getLast? = some newest ∧
        Move x (.released (rules.commitSequence (rules.selected newest)) none outcomes) x')
      (Idle x) := by
  unfold releaseBundleCaptures
  refine .look_bind (.reject_bind (fun _ => .refl x) fun _ => ?_)
  split
  · exact .refl x
  next newest hnewest =>
  split
  · exact .refl x
  next last hlast =>
  refine .lift_bind (fun _ _ => ?_) (.refl x)
  refine .reject_bind (fun _ => .refl x) fun hend => ?_
  refine .lift_bind (fun _ hverified => ?_) (.refl x)
  refine .lift_bind (fun _ _ => dropped_ends hbytes captures.length _ ⟨newest, hnewest, ?_⟩)
    (.refl x)
  obtain ⟨n, hn⟩ : ∃ n, captures.length = n + 1 := by
    cases captures with
    | nil => cases hnewest
    | cons c cs => exact ⟨cs.length, rfl⟩
  have hunbound := verifyCaptures_ok hverified
  rw [hn] at hunbound ⊢
  rw [hn, Nat.add_sub_cancel] at hlast
  have hsplit : x.pending = x.pending.take n ++ last :: x.pending.drop (n + 1) := by
    obtain ⟨hlt, hget⟩ := List.getElem?_eq_some_iff.1 hlast
    rw [← hget, cons_getElem_drop_succ, take_append_drop]
  have hseq := (Bool.or_eq_false_iff.1 hend).1
  rw [bne_eq_false_iff_eq.1 hseq]
  have htake := take_succ_of_split hsplit
  rw [htake] at hunbound ⊢
  exact .release hsplit hunbound rfl rfl rfl rfl rfl

end

/-- A materialized root changes what was published, not the queue. -/
theorem bindBundleMaterialized_idle (rules : BundleRules Proof Checkpoint Capture)
    (root : CellRootRef) (original : Proof) :
    (bindBundleMaterialized rules root original).Ends x (fun _ => Idle x) (Idle x) := by
  unfold bindBundleMaterialized
  rw [ends_bind, ends_look]
  split
  · exact .refl x
  refine .reject_bind (fun _ => .refl x) fun _ => ?_
  refine .lift_bind (fun _ _ => ?_) (.refl x)
  refine .lift_bind (fun _ _ => ?_) (.refl x)
  refine .lift_bind (fun _ _ => ?_) (.refl x)
  exact ends_change.2 ⟨rfl, rfl, rfl, id, fun _ => rfl⟩

/-! ## All calls -/

/-- The commands, the queries, the migration and the hydration. -/
def Call.isWork : Call App Proof Checkpoint Capture → Bool
  | .execute .. | .executeGroup .. | .deliverEffect .. | .query .. | .prepareHydration ..
  | .installHydration .. | .migrate .. => true
  | _ => false

/-- The calls that read the database outside of a transaction that writes. -/
def Call.reads : Call App Proof Checkpoint Capture → Bool
  | .query .. | .resolve .. | .resolveEffect .. => true
  | _ => false

/-- The reply tells what stands in the database: the result of a query, the stored outcome of a
request that is presented again, or whether there is one. A group with a pending entry tells
nothing: it is hidden until its proof (`executor/group.rs:1`). -/
def Reply.observes : Reply → Bool
  | .executed (.recorded _) => true
  | .grouped group => group.pending.isNone
  | .read _ => true
  | .resolved resolution => resolution != .unknown
  | _ => false

/-- What one call does: it makes a move, a fence stays and refuses work, and a reply that tells of
the database is given on a durable head. -/
structure Served (env : Env App Proof Checkpoint Capture) (x : CellExecutor App Proof Checkpoint)
    (call : Call App Proof Checkpoint Capture) (reply : Reply)
    (x' : CellExecutor App Proof Checkpoint) : Prop where
  move : Move x (evidence env call reply) x'
  refuses : x.fenced = true → call.isWork = true → ∃ e, reply = .failed e
  observed : reply.observes = true → x.fenced = false ∧ x.logicalHeadIsDurable = true ∧
    (x.pendingMigration = none ∨ call.reads = true)

/-- Who accepts a publication has a durable head and no migration. -/
theorem acceptsPublication_parts (h : x.acceptsPublication = true) :
    x.logicalHeadIsDurable = true ∧ x.pendingMigration = none := by
  unfold acceptsPublication at h
  simp only [Bool.and_eq_true, isNone_iff_eq_none] at h
  exact ⟨h.1.1.2, h.1.1.1⟩

/-- The reply and the executor that a program leaves. -/
theorem mapped_of_ends {m : ExecutorM App Proof Checkpoint α}
    {reply : α → Reply} {P : Reply → CellExecutor App Proof Checkpoint → Prop}
    (h : m.Ends x (fun a => P (reply a)) fun x' => ∀ e, P (.failed e) x') :
    P ((m.outcome x).map (Reply.of reply) id).1 ((m.outcome x).map (Reply.of reply) id).2 := by
  unfold Ends at h
  rcases hm : m.outcome x with ⟨r, x'⟩
  rw [hm] at h
  cases r with
  | ok a => exact h
  | error e => exact h e

/-- A read of the ledger or of the inbox. -/
theorem Answered.served (h : Answered x x' resolution)
    (hreads : call.reads = true) (hwork : call.isWork = false)
    (hcall : ∀ reply, evidence env call reply = .none) :
    Served env x call (.resolved resolution) x' := by
  obtain ⟨rfl, hanswer⟩ := h
  refine ⟨?_, fun _ hcall => (nomatch hwork.symm.trans hcall), fun hobserves => ?_⟩
  · rw [hcall]
    exact (Idle.refl x').move
  · rcases hanswer with rfl | ⟨hfenced, hdurable⟩
    · cases hobserves
    · exact ⟨hfenced, hdurable, .inr hreads⟩

/-- A call that failed and left the queue. -/
theorem Idle.served (h : Idle x x') (e : Error) : Served env x call (.failed e) x' where
  move := .idle h fun n root outcomes hreleased => by cases call <;> cases hreleased
  refuses := fun _ _ => ⟨e, rfl⟩
  observed := nofun

/-- A call that is not work and whose reply tells nothing of the database. -/
theorem Move.served (h : Move x (evidence env call reply) x')
    (hwork : call.isWork = false) (hreply : reply.observes = false) :
    Served env x call reply x' where
  move := h
  refuses := fun _ hcall => nomatch hwork.symm.trans hcall
  observed := fun hobserves => nomatch hreply.symm.trans hobserves

/-- A call of an executor that is not fenced, and what it observed on. -/
theorem Move.servedOpen (h : Move x (evidence env call reply) x') (hfenced : x.fenced = false)
    (hobserved : reply.observes = true → x.logicalHeadIsDurable = true ∧
      (x.pendingMigration = none ∨ call.reads = true)) : Served env x call reply x' where
  move := h
  refuses := fun hx => nomatch hfenced.symm.trans hx
  observed := fun hobserves => ⟨hfenced, hobserved hobserves⟩

/-- A command, a group, a delivery or a migration. -/
theorem works_served {m : ExecutorM App Proof Checkpoint α} {reply : α → Reply}
    (hcall : ∀ reply, evidence env call reply = .none)
    (h : ∀ {r x'}, m.outcome x = (r, x') → Works x (fun a => (reply a).observes) r x') :
    m.Ends x (fun a => Served env x call (reply a))
      fun x' => ∀ e, Served env x call (.failed e) x' := by
  refine .intro (fun a x' hm => ?_) fun e x' hm e' => ?_
  · obtain ⟨hmove, hrefused, htold⟩ := h hm
    have hopen : x.fenced = false := by
      rcases hx : x.fenced with _ | _
      · rfl
      · obtain ⟨e, herror⟩ := hrefused hx
        cases herror
    rw [← hcall (reply a)] at hmove
    refine hmove.servedOpen hopen fun hobserves => ?_
    obtain ⟨hdurable, hnone⟩ := acceptsPublication_parts (htold a rfl hobserves)
    exact ⟨hdurable, .inl hnone⟩
  · refine ⟨?_, fun _ _ => ⟨e', rfl⟩, nofun⟩
    rw [hcall]
    exact (h hm).move

/-- What a call does, whichever call it is and whichever way it ends. -/
theorem perform_served (hbytes : x.pendingBytes = retainedSum x.pending)
    (env : Env App Proof Checkpoint Capture) (call : Call App Proof Checkpoint Capture) :
    Served env x call (perform env x call).1 (perform env x call).2 := by
  have hfails : ∀ {call : Call App Proof Checkpoint Capture} x', Idle x x' →
      ∀ e, Served env x call (.failed e) x' := fun _ h e => h.served e
  cases call with
  | execute storage command =>
    exact mapped_of_ends (works_served (fun _ => rfl) execute_works)
  | executeGroup storage late commands =>
    exact mapped_of_ends (works_served (fun _ => rfl) executeGroup_works)
  | deliverEffect storage delivery now limit handler =>
    exact mapped_of_ends (works_served (fun _ => rfl) deliverEffect_works)
  | query storage limit handler =>
    refine mapped_of_ends ((query_ends storage limit handler).mono ?_ hfails)
    rintro result x' ⟨rfl, hfenced, hdurable⟩
    exact Move.servedOpen (Idle.refl x').move hfenced fun _ => ⟨hdurable, .inr rfl⟩
  | resolve storage identity operationDigest now limit =>
    refine mapped_of_ends ((resolve_ends storage identity operationDigest now limit).mono
      (fun r x' h => ?_) hfails)
    exact h.served rfl rfl fun _ => rfl
  | resolveEffect storage delivery now limit =>
    refine mapped_of_ends ((resolveEffect_ends storage delivery now limit).mono
      (fun r x' h => ?_) hfails)
    exact h.served rfl rfl fun _ => rfl
  | prepareHydration answer pages =>
    refine mapped_of_ends ((prepareHydration_ends answer pages).mono ?_ hfails)
    rintro _ x' ⟨rfl, hfenced⟩
    exact Move.servedOpen (Idle.refl x').move hfenced nofun
  | installHydration answer =>
    refine mapped_of_ends ((installHydration_ends answer).mono ?_ hfails)
    rintro _ x' ⟨rfl, hfenced⟩
    exact Move.servedOpen (Idle.refl x').move hfenced nofun
  | migrate storage plan now =>
    exact mapped_of_ends (works_served (m := migrate env.sqlite env.hash env.hooks storage plan now)
      (fun _ => rfl) migrate_works)
  | bindMigrationPrepared prepared =>
    exact mapped_of_ends ((bindMigrationPrepared_ends prepared).mono
      (fun _ _ h => Move.served h rfl rfl) hfails)
  | confirmMigrationPublished prune root =>
    exact mapped_of_ends ((confirmMigrationPublished_ends prune root).mono
      (fun _ _ h => Move.served h rfl rfl) hfails)
  | confirmDurable n =>
    exact mapped_of_ends ((confirmDurable_ends env.rules n).mono
      (fun _ _ h => Move.served h rfl rfl) hfails)
  | bindPrepared prepared =>
    exact mapped_of_ends ((bindPrepared_ends prepared).mono
      (fun _ _ h => Move.served h rfl rfl) hfails)
  | bindPreparedAll prepared mergedPosition =>
    exact mapped_of_ends ((bindPreparedAll_ends prepared mergedPosition).mono
      (fun _ _ h => Move.served h rfl rfl) fun _ h _ => Move.served h rfl rfl)
  | confirmPublished prune root =>
    exact mapped_of_ends ((confirmPublished_ends hbytes env.rules prune root).mono
      (fun _ _ h => Move.served h rfl rfl) hfails)
  | confirmPublishedRange prune root =>
    exact mapped_of_ends ((confirmPublishedRange_ends hbytes env.rules prune root).mono
      (fun _ _ h => Move.served h.1 rfl rfl) hfails)
  | releaseBundleCaptures prune captures =>
    refine mapped_of_ends ((releaseBundleCaptures_ends hbytes env.rules prune captures).mono ?_
      hfails)
    rintro outcomes x' ⟨newest, hnewest, hmove⟩
    refine Move.served ?_ rfl rfl
    simpa only [evidence, hnewest] using hmove
  | bindBundleMaterialized root original =>
    exact mapped_of_ends ((bindBundleMaterialized_idle env.rules root original).mono
      (fun _ _ h => Move.served h.move rfl rfl) hfails)
  | fence => exact Move.served (Idle.fenceWith x x.db).move rfl rfl

/-- A fence stays. -/
theorem Move.fenced (h : Move x e x') (hfenced : x.fenced = true) : x'.fenced = true := by
  cases h with
  | idle hidle => exact hidle.fenced hfenced
  | push hopen => cases hopen.symm.trans hfenced
  | migrate hopen => cases hopen.symm.trans hfenced
  | release _ _ _ _ _ hsame => exact hsame.trans hfenced
  | bindMigration | publishMigration | durable | bind => exact hfenced

/-- A durable head and flags that are a prefix: every entry is durable. -/
theorem durable_of_head (hhead : x.logicalHeadIsDurable = true)
    (hflags : x.pending.Pairwise fun p q => q.durable = true → p.durable = true) :
    ∀ p ∈ x.pending, p.durable = true := by
  intro p hp
  unfold logicalHeadIsDurable at hhead
  rcases eq_nil_or_concat x.pending with hnil | ⟨before, last, hpending⟩
  · rw [hnil] at hp
    cases hp
  · rw [hpending] at hp hhead hflags
    rw [concat_eq_append] at hp hhead hflags
    rw [getLast?_append, getLast?_singleton, some_or] at hhead
    rcases mem_append.1 hp with hp | hp
    · exact (pairwise_append.1 hflags).2.2 p hp last (mem_singleton_self _) hhead
    · rw [mem_singleton.1 hp]
      exact hhead

end CellExecutor

namespace ReleaseState

variable {App Proof Checkpoint Capture : Type} {s : ReleaseState App Proof Checkpoint} {base : Nat}

open CellExecutor (Call Env perform perform_served retainedSum)

/-! ## Runs -/

/-- A call keeps the invariant. -/
theorem step_inv (h : Inv base s) (env : Env App Proof Checkpoint Capture)
    (call : Call App Proof Checkpoint Capture) : Inv base (step env s call) :=
  Move.inv h (perform_served h.bytes env call).move

/-- A run keeps the invariant. -/
theorem run_inv (h : Inv base s) (env : Env App Proof Checkpoint Capture)
    (calls : List (Call App Proof Checkpoint Capture)) : Inv base (run env s calls) := by
  induction calls generalizing s with
  | nil => exact h
  | cons call calls ih => exact ih (step_inv h env call)

/-- A fence stays over a run. -/
theorem run_fenced (h : Inv base s) (env : Env App Proof Checkpoint Capture)
    (calls : List (Call App Proof Checkpoint Capture)) (hfenced : s.executor.fenced = true) :
    (run env s calls).executor.fenced = true := by
  induction calls generalizing s with
  | nil => exact hfenced
  | cons call calls ih =>
    exact ih (step_inv h env call) ((perform_served h.bytes env call).move.fenced hfenced)

/-- A run goes on. -/
theorem run_append (env : Env App Proof Checkpoint Capture) (s : ReleaseState App Proof Checkpoint)
    (before after : List (Call App Proof Checkpoint Capture)) :
    run env s (before ++ after) = run env (run env s before) after := foldl_append

/-- A database that has only transactions that are proved. -/
def AllProven (base : Nat) (s : ReleaseState App Proof Checkpoint) : Prop :=
  s.executor.db.sysMeta.commitSequence = s.landed.getLast?.getD base ∧ ∀ n ∈ s.landed, s.Proven n

/-- With a durable head and no migration everything is proved. -/
theorem Inv.allProven (h : Inv base s) (hfenced : s.executor.fenced = false)
    (hdurable : s.executor.logicalHeadIsDurable = true)
    (hnone : s.executor.pendingMigration = none) : AllProven base s := by
  refine ⟨h.tip hfenced, fun n hn => ?_⟩
  rcases h.proven n hn with hproven | ⟨p, hp, -, hflag⟩ | ⟨m, hm, -⟩
  · exact hproven
  · cases (CellExecutor.durable_of_head hdurable h.flags p hp).symm.trans hflag
  · cases hnone.symm.trans hm

/-- Every read in a run finds no migration that awaits its publication. -/
def ReadsSettled (env : Env App Proof Checkpoint Capture) :
    ReleaseState App Proof Checkpoint → List (Call App Proof Checkpoint Capture) → Prop
  | _, [] => True
  | s, call :: calls =>
    (call.reads = true → s.executor.pendingMigration = none) ∧
      ReadsSettled env (step env s call) calls

/-- A read in the run finds no migration. -/
theorem ReadsSettled.at_call {before after : List (Call App Proof Checkpoint Capture)}
    (h : ReadsSettled env s (before ++ call :: after)) (hreads : call.reads = true) :
    (run env s before).executor.pendingMigration = none := by
  induction before generalizing s with
  | nil => exact h.1 hreads
  | cons first before ih => exact ih h.2

/-- What the queue of an executor is, and what left it. -/
structure Queue (s : ReleaseState App Proof Checkpoint) : Prop where
  increasing : (s.executor.pending.map (·.outcome.commitSequence)).Pairwise (· < ·)
  flags : s.executor.pending.Pairwise fun p q => q.durable = true → p.durable = true
  bytes : s.executor.pendingBytes = retainedSum s.executor.pending
  /-- What was released is what was queued, from the front, without a gap and in order. -/
  order : s.queued = s.released.map (·.1) ++ s.executor.pending.map (·.outcome)
  once : (s.queued.map (·.commitSequence)).Pairwise (· < ·)
  bound : ∀ o root, (o, some root) ∈ s.released → (o, root) ∈ s.bound

/-- The queue is in order. -/
theorem Inv.queue (h : Inv base s) : Queue s where
  increasing := by
    have hinc := h.increasing
    rw [h.order, map_append, pairwise_append] at hinc
    have htail := hinc.2.1
    rwa [List.map_map] at htail
  flags := h.flags
  bytes := h.bytes
  order := h.order
  once := h.increasing
  bound := h.releasedBound

/-- No result escapes before its proof, in runs whose reads find no unpublished migration: a reply
that tells of the database is given when everything in it is proved, the queue is in order after
every call, and after a fence no work succeeds. -/
theorem no_result_before_proof (env : Env App Proof Checkpoint Capture) (db : CellDb App)
    (cell : CellId) (incarnation : IncarnationId) (schema published : Nat)
    (calls : List (Call App Proof Checkpoint Capture))
    (hsettled : ReadsSettled env (start db cell incarnation schema published) calls) :
    Queue (run env (start db cell incarnation schema published) calls) ∧
      ∀ before call after, calls = before ++ call :: after →
        let s := run env (start db cell incarnation schema published) before
        let reply := (perform env s.executor call).1
        (reply.observes = true → AllProven db.sysMeta.commitSequence s) ∧
          (s.executor.fenced = true → call.isWork = true → ∃ e, reply = .failed e) ∧
          (Call.fence ∈ before → s.executor.fenced = true) ∧
          ∀ earlier later, before = earlier ++ later →
            (run env (start db cell incarnation schema published) earlier).executor.fenced = true →
            s.executor.fenced = true := by
  have hstart : Inv db.sysMeta.commitSequence
      (start db cell incarnation schema published : ReleaseState App Proof Checkpoint) :=
    start_inv db cell incarnation schema published
  refine ⟨(run_inv hstart env calls).queue, ?_⟩
  rintro before call after rfl
  have hinv := run_inv hstart env before
  have hserved := perform_served hinv.bytes env call
  refine ⟨fun hobserves => ?_, hserved.refuses, fun hfence => ?_, ?_⟩
  · obtain ⟨hfenced, hdurable, hnone⟩ := hserved.observed hobserves
    exact hinv.allProven hfenced hdurable (hnone.elim id hsettled.at_call)
  · obtain ⟨earlier, later, rfl⟩ := append_of_mem hfence
    rw [run_append]
    exact run_fenced (step_inv (run_inv hstart env earlier) env .fence) env later rfl
  · rintro earlier later rfl hfenced
    rw [run_append]
    exact run_fenced (run_inv hstart env earlier) env later hfenced

/-- An environment of numbers, with a script that adds 7. -/
def sampleEnv : Env (List Nat) Unit Unit Unit :=
  ⟨CellExecutor.sampleRules, CellExecutor.sampleHooks, fun _ => .fill 32 9,
    fun _ db => (.ok (), .opened { db with app := 7 :: db.app })⟩

/-- An empty Cell that was opened. -/
def sampleStart : ReleaseState (List Nat) Unit Unit :=
  start (.installed (.fill 32 5) (.fill 16 6) 1 []) (.fill 32 5) (.fill 16 6) 1 0

/-- A storage that captures one cut of 100 bytes. -/
def sampleStorage : Storage := .sound ⟨[⟨1, 1, 4096, 1, 0, 1, 100, .fill 32 0⟩], 1, 1⟩

/-- A command that adds 7. -/
def sampleCommand : Call (List Nat) Unit Unit Unit :=
  .execute sampleStorage ⟨⟨.fill 16 1, 0, 1000⟩, .fill 32 1, 10, 8,
    fun db => (.ok (.success [1]), .opened { db with app := 7 :: db.app })⟩

/-- A query of the numbers. -/
def sampleQuery : Call (List Nat) Unit Unit Unit :=
  .query ⟨none, none⟩ 8 fun db => .ok (db.app.map UInt8.ofNat)

/-- A migration to schema 2 with the script that adds 7. -/
def sampleMigration : Call (List Nat) Unit Unit Unit :=
  .migrate sampleStorage ⟨.fill 32 1, .fill 32 2, 1, 2, some ⟨[], .fill 32 9⟩⟩ 10

/-- After its proof the sample is read. -/
theorem no_result_before_proof_sample :
    (perform sampleEnv (run sampleEnv sampleStart [sampleCommand, .confirmDurable 1]).executor
        sampleQuery).1.observes = true ∧
      AllProven 0 (run sampleEnv sampleStart [sampleCommand, .confirmDurable 1]) := by
  have hobserves : (perform sampleEnv
      (run sampleEnv sampleStart [sampleCommand, .confirmDurable 1]).executor
      sampleQuery).1.observes = true := by decide +kernel
  have hsettled : ReadsSettled sampleEnv sampleStart
      [sampleCommand, .confirmDurable 1, sampleQuery] := by
    refine ⟨nofun, nofun, fun _ => ?_, trivial⟩
    decide +kernel
  refine ⟨hobserves, ?_⟩
  exact ((no_result_before_proof sampleEnv _ _ _ _ _ _ hsettled).2
    [sampleCommand, .confirmDurable 1] sampleQuery [] rfl).1 hobserves

/-- After a migration that is neither durable nor published a query answers from it. -/
theorem query_reads_unpublished_migration :
    (match (perform sampleEnv (run sampleEnv sampleStart [sampleMigration]).executor
        sampleQuery).1 with
      | .read result => result = [7]
      | _ => False) ∧
      (run sampleEnv sampleStart [sampleMigration]).landed = [1] ∧
      ¬ (run sampleEnv sampleStart [sampleMigration]).Proven 1 := by
  refine ⟨?_, ?_, ?_⟩
  · rfl
  · decide +kernel
  · unfold Proven
    decide +kernel

end ReleaseState

end Cellule
