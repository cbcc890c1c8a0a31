import Cellule.Control.Safety

/-!
# Every departed owner is retained

A control object's history names an owner for every epoch that had one (`Lineage.exists_owner`), and
an owner was retained before the update that ended it (`Lineage.departed`). So `owner_history` finds
an observation for every closed epoch, and the order of the revisions makes its checks pass.
-/

namespace Cellule

open Except Interleave Cas List

/-! ## The owners of an epoch -/

/-- Only a takeover adds an epoch with an owner. -/
theorem Control.Step.ownerCount {c n : Control} (hs : c.Succeeds n)
    (h : c.Step n k) : n.ownerCount = c.ownerCount + if k = .takeover then 1 else 0 := by
  have hb := h.before hs
  have hep := h.epoch
  by_cases hk : k = .takeover
  · subst hk
    obtain ⟨hst, hst', hne, -⟩ := h
    rw [Control.ownerCount, Control.ownerCount, if_neg hst, hst', hne]
    rfl
  by_cases hk' : k = .tombstone
  · subst hk'
    obtain ⟨hst, hst', hne, -⟩ := h
    rw [Control.ownerCount, Control.ownerCount, if_neg hst, if_pos hst', hne]
    rfl
  -- every other transition keeps the epoch, and is a tombstone exactly when its predecessor is
  have hop : k.opensEpoch = false := by
    rw [Transition.opensEpoch, Bool.or_eq_false_iff, beq_eq_false_iff_ne, beq_eq_false_iff_ne]
    exact ⟨hk, hk'⟩
  have hstate : n.state = .tombstoned ↔ c.state = .tombstoned := by
    refine ⟨fun hn => ?_, hb.tombstoned⟩
    cases k with
    | bindBundle => exact h.2.2.2.2.1 ▸ hn
    | renew => exact h.2.1 ▸ hn
    | activate => rw [h.2.1] at hn; cases hn
    | publish | migrate | release => rw [h.2.1] at hn; cases hn
    | attachRecovery => exact h.2.2.2.1 ▸ hn
    | publishRecovery => exact h.2.1 ▸ hn
    | takeover => exact (hk rfl).elim
    | tombstone => exact (hk' rfl).elim
  rw [hop] at hep
  rw [if_neg hk, Control.ownerCount, Control.ownerCount, hep]
  simp only [hstate, Bool.false_eq_true, if_false, Nat.add_zero]

section
variable {J : ControlCodec} {T : Type} {h : AuthorityHistory T} {cell : CellId}

variable {v : Version Bytes T (Label T)}

/-- Every epoch that had an owner is in the history with it. -/
theorem Lineage.exists_owner {vs : List (Version Bytes T (Label T))}
    (hl : Lineage J h cell (v :: vs)) (he : 1 ≤ e) (hle : e ≤ (recordOf v).ownerCount) :
    ∃ u ∈ v :: vs, (recordOf u).epoch = e ∧ (recordOf u).owner.isSome := by
  induction vs generalizing v with
  | nil =>
    obtain ⟨-, c, hlab, _, _, _, _, hinit⟩ := hl
    obtain ⟨-, -, -, hep, -, -, hst, hown, -⟩ := Control.initial_ok hinit
    have hv : recordOf v = c := by rw [recordOf, hlab]; rfl
    rw [hv, Control.ownerCount, hst, hep] at hle
    exact ⟨v, mem_cons_self .., by rw [hv, hep]; simp at hle; omega, by rw [hv, hown]; rfl⟩
  | cons u vs ih =>
    obtain ⟨k, -, hs, hstep, -⟩ := hl.link
    have hcount := hstep.ownerCount hs
    by_cases hold : e ≤ (recordOf u).ownerCount
    · obtain ⟨w, hw, hrest⟩ := ih hl.tail hold
      exact ⟨w, mem_cons_of_mem _ hw, hrest⟩
    · -- the epoch is the newest one, which a takeover opened with its owner
      have hk : k = .takeover := by
        by_contra hk
        rw [if_neg hk] at hcount
        omega
      subst hk
      obtain ⟨hst, -, hep, hown, -⟩ := hstep
      rw [if_pos rfl, Control.ownerCount, Control.ownerCount, if_neg hst] at hcount
      rw [Control.ownerCount, if_neg hst] at hold
      refine ⟨v, mem_cons_self .., ?_, hown⟩
      rw [Control.ownerCount] at hle
      omega

/-- The owner of an epoch is the current one, or is retained. -/
theorem Lineage.departed
    (hl : Lineage J h cell (v :: vs)) (hu : u ∈ v :: vs) (howner : (recordOf u).owner.isSome) :
    ((recordOf v).epoch = (recordOf u).epoch ∧ (recordOf v).owner = (recordOf u).owner) ∨
      ∃ w ∈ h (.owner cell (recordOf u).incarnation (recordOf u).epoch),
        (recordOf w).owner = (recordOf u).owner := by
  induction vs generalizing v with
  | nil =>
    rw [mem_singleton.1 hu]
    exact .inl ⟨rfl, rfl⟩
  | cons x vs ih =>
    rcases mem_cons.1 hu with rfl | hux
    · exact .inl ⟨rfl, rfl⟩
    rcases ih hl.tail hux with ⟨hep, hown⟩ | hret
    · obtain ⟨k, -, hs, hstep, hret⟩ := hl.link
      by_cases hsame : (recordOf x).owner = (recordOf v).owner
      · -- an epoch opens only with another owner or with none
        refine .inl ⟨?_, hsame.symm.trans hown⟩
        rw [hstep.epoch, ← hep]
        cases k with
        | takeover => exact (hstep.2.2.2.2.1 hsame).elim
        | tombstone =>
          rw [hstep.2.2.2.1, hown] at hsame
          rw [hsame] at howner
          cases howner
        | _ => rfl
      · obtain ⟨w, hw, hwo, -⟩ := hret ⟨hown ▸ howner, hsame⟩
        have hx := (hl.tail.scope x (mem_cons_self ..)).2
        have hinc : (recordOf x).incarnation = (recordOf u).incarnation := by
          rcases hl.tail.total (mem_cons_self ..) hux with heq | hb | hb
          · rw [heq]
          · exact hb.incarnation.symm
          · exact hb.incarnation
        rw [hx, hep, hinc] at hw
        exact .inr ⟨w, hw, hwo.trans hown⟩
    · exact .inr hret

/-- A stored record passed its check. -/
theorem Stored.valid (hs : Stored J v) : (recordOf v).Valid :=
  Control.validate_ok (ControlCodec.encode_eq_ok.1 hs).1

/-- An owned record is of the last epoch that had an owner, which is not closed. -/
theorem Control.Valid.ownerCount_of_owner {c : Control} (hv : c.Valid) (ho : c.owner.isSome) :
    c.ownerCount = c.epoch ∧ c.closedEpochs + 1 = c.epoch := by
  have hst : c.state ≠ .tombstoned := by
    intro hst
    rcases hv.owned.1 ho with h | h <;> rw [hst] at h <;> cases h
  have hpos := hv.epoch
  have hcount : c.ownerCount = c.epoch := if_neg hst
  refine ⟨hcount, ?_⟩
  rw [Control.closedEpochs, if_pos ho, hcount]
  omega

/-- Without an owner every epoch that had one is closed. -/
theorem Control.closedEpochs_of_none {c : Control} (ho : ¬ c.owner.isSome) :
    c.closedEpochs = c.ownerCount := if_neg ho

/-- The record retained for an epoch. -/
def Row (h : AuthorityHistory T) (cell : CellId) (incarnation : IncarnationId) (epoch : Nat)
    (c : Control) : Prop :=
  (h (.owner cell incarnation epoch)).head?.map recordOf = some c

section
variable {v : Version Bytes T (Label T)} {vs : List (Version Bytes T (Label T))}

variable {e : Nat} {c : Control}

/-- What a retained record is. -/
theorem Kept.row (hk : Kept J h) (hr : Row h cell incarnation e c) :
    Observed h c ∧ c.cell = cell ∧ c.incarnation = incarnation ∧ c.epoch = e := by
  obtain ⟨w, hw, rfl⟩ := Option.map_eq_some_iff.1 hr
  exact ((hk.owner cell incarnation e).1 w (mem_of_mem_head? hw)).2

/-- Every closed epoch has a retained record. -/
theorem Kept.exists_row (hk : Kept J h) (hv : h (.control cell) = v :: vs) (he : 1 ≤ e)
    (hle : e ≤ (recordOf v).closedEpochs) : ∃ c, Row h cell (recordOf v).incarnation e c := by
  have hl := hk.control cell
  rw [hv] at hl
  have hvalid : (recordOf v).Valid := (hl.scope v (mem_cons_self ..)).1.valid
  have hcount : e ≤ (recordOf v).ownerCount := by
    rw [Control.closedEpochs] at hle
    split at hle <;> omega
  obtain ⟨u, hu, hue, huo⟩ := hl.exists_owner he hcount
  rcases hl.departed hu huo with ⟨hep, hown⟩ | ⟨w, hw, -⟩
  · -- the current owner's epoch is not closed
    have := (hvalid.ownerCount_of_owner (hown ▸ huo)).2
    omega
  · have hinc : (recordOf u).incarnation = (recordOf v).incarnation := by
      rcases mem_cons.1 hu with rfl | hu
      · rfl
      · exact ((pairwise_cons.1 hl.pairwise).1 u hu).incarnation.symm
    rw [hinc, hue] at hw
    unfold Row
    cases hlist : h (.owner cell (recordOf v).incarnation e) with
    | nil => rw [hlist] at hw; cases hw
    | cons x xs => exact ⟨recordOf x, rfl⟩

/-- The record retained for a closed epoch is before the current one. -/
theorem Kept.row_before_current (hk : Kept J h) (hv : h (.control cell) = v :: vs)
    (hle : e ≤ (recordOf v).closedEpochs) (hr : Row h cell (recordOf v).incarnation e c) :
    c.Before (recordOf v) := by
  obtain ⟨⟨hco, u, hu, rfl⟩, hcell, -, hep⟩ := hk.row hr
  have hl := hk.control cell
  rw [hcell] at hu
  rw [hv] at hl hu
  rcases mem_cons.1 hu with rfl | hu
  · have := ((hl.scope u (mem_cons_self ..)).1.valid.ownerCount_of_owner hco).2
    omega
  · exact (pairwise_cons.1 hl.pairwise).1 u hu

/-- The record retained for an epoch is before that of the next. -/
theorem Kept.row_before_row (hk : Kept J h)
    (hc : Row h cell incarnation e c) (hd : Row h cell incarnation (e + 1) d) : c.Before d := by
  obtain ⟨⟨-, u, hu, rfl⟩, hcell, -, hep⟩ := hk.row hc
  obtain ⟨⟨-, u', hu', rfl⟩, hcell', -, hep'⟩ := hk.row hd
  rw [hcell] at hu
  rw [hcell'] at hu'
  rcases (hk.control cell).total hu hu' with heq | hb | hb
  · rw [heq, hep'] at hep
    omega
  · exact hb
  · have := hb.epoch
    omega

/-! ## The history on a store nobody writes -/

/-- Rows that are before the current record and before one another pass the order check. -/
theorem ownerOutOfOrder_eq_false {current owner : Control}
    (hc : owner.Before current) (ho : ∀ p, owners.getLast? = some p → p.Before owner) :
    ownerOutOfOrder current owner owners = false := by
  have later {a b : Control} (hab : a.Before b) :
      (decide (a.revision ≥ b.revision) || decide (a.progress ≥ b.progress)) = false := by
    have h1 := hab.revision
    have h2 := hab.progress
    rw [Bool.or_eq_false_iff, decide_eq_false_iff_not, decide_eq_false_iff_not]
    omega
  unfold ownerOutOfOrder
  rw [later hc, Bool.false_or]
  cases hlast : owners.getLast? with
  | none => rfl
  | some p =>
    rw [Option.any_some]
    exact later (ho p hlast)

theorem quiet_getBounded (key : Key) (hb : ∀ v ∈ h key, v.body.length ≤ maxControlBytes) :
    quiet h (getBounded key : AuthorityCode T _).run = some (.ok (current (h key))) := by
  refine (quiet_bindE (quiet_get h storageError key)).trans (quiet_checkE (a := ()) ?_)
  rw [reject_eq_ok]
  cases hv : h key with
  | nil => rfl
  | cons v vs =>
    have hlen := hb v (hv ▸ mem_cons_self ..)
    simpa [current] using hlen

theorem quiet_load (hk : Kept J h) (cell : CellId) :
    quiet h (load J cell : AuthorityCode T _).run =
      some (.ok ((h (.control cell)).head?.map fun v => ⟨recordOf v, v.token⟩)) := by
  refine (quiet_bindE (quiet_getBounded _ fun v hv => ?_)).trans
    (quiet_lift (hk.decodeControl cell))
  exact (ControlCodec.encode_eq_ok.1 ((hk.control cell).scope v hv).1).2.1

theorem quiet_ownerObservation (hk : Kept J h) (cell : CellId) (incarnation : IncarnationId)
    (hepoch : 1 ≤ epoch) :
    quiet h (ownerObservation J cell incarnation epoch : AuthorityCode T _).run =
      some (.ok ((h (.owner cell incarnation epoch)).head?.map recordOf)) := by
  have hload : quiet h (loadOwnerObservation J cell incarnation epoch : AuthorityCode T _).run =
      some (.ok ((h (.owner cell incarnation epoch)).head?.map fun v =>
        (recordOf v, v.token))) := by
    refine (quiet_checkE (a := ()) ?_).trans
      ((quiet_bindE (quiet_getBounded _ fun v hv => ?_)).trans
      (quiet_lift (hk.decodeObservation cell incarnation epoch)))
    · rw [reject_eq_ok, beq_eq_false_iff_ne]
      omega
    · exact (ControlCodec.encode_eq_ok.1 ((hk.owner cell incarnation epoch).1 v hv).1).2.1
  refine (quiet_bindE hload).trans ?_
  cases (h (.owner cell incarnation epoch)).head? <;> rfl

/-- The loop of `owner_history` collects the retained record of every remaining epoch. -/
theorem quiet_collectOwners (hk : Kept J h) (hv : h (.control cell) = v :: vs)
    (remaining epoch : Nat) (owners : List Control) (hepoch : 1 ≤ epoch)
    (hle : epoch + remaining ≤ (recordOf v).closedEpochs + 1)
    (hlast : ∀ p, owners.getLast? = some p →
      Row h cell (recordOf v).incarnation (epoch - 1) p) :
    ∃ rows, quiet h (collectOwners J cell (recordOf v) remaining epoch owners).run =
        some (.ok (owners ++ rows)) ∧
      List.Forall₂ (Row h cell (recordOf v).incarnation) (List.range' epoch remaining) rows := by
  induction remaining generalizing epoch owners with
  | zero => exact ⟨[], by rw [append_nil]; rfl, .nil⟩
  | succ remaining ih =>
    obtain ⟨c, hc⟩ := hk.exists_row hv hepoch (by omega)
    have hbefore := hk.row_before_current hv (by omega) hc
    have horder : ownerOutOfOrder (recordOf v) c owners = false := by
      refine ownerOutOfOrder_eq_false hbefore fun p hp => hk.row_before_row (hlast p hp) ?_
      rwa [Nat.sub_add_cancel hepoch]
    obtain ⟨rows, hrows, hall⟩ := ih (epoch + 1) (owners ++ [c]) (by omega) (by omega) (by
      intro p hp
      rw [getLast?_concat, Option.some.injEq] at hp
      rwa [← hp])
    refine ⟨c :: rows, ?_, .cons hc hall⟩
    refine (quiet_bindE (quiet_ownerObservation hk cell _ hepoch)).trans ?_
    rw [show (h (.owner cell (recordOf v).incarnation epoch)).head?.map recordOf = some c from hc]
    refine (quiet_checkE (a := ()) (by rw [horder]; rfl)).trans ?_
    rw [hrows, append_assoc]
    rfl

/-- The rows `owner_history` returns, from the retained records of the closed epochs. -/
def Control.ownerRows (c : Control) (rows : List Control) : List Control :=
  if c.owner.isSome then rows ++ [c] else rows

theorem Control.mem_ownerRows : x ∈ c.ownerRows rows ↔ x ∈ rows ∨ (c.owner.isSome ∧ x = c) := by
  unfold Control.ownerRows
  split
  · next ho => simp [ho]
  · next ho => simp [ho]

/-- On a store nobody writes, `owner_history` returns the retained record of every closed epoch and
then the current owner's. -/
theorem quiet_ownerHistory (hk : Kept J h) (hv : h (.control cell) = v :: vs)
    (hlimit : limit ≠ 0) (hcount : (recordOf v).ownerCount ≤ limit) :
    ∃ rows, quiet h (ownerHistory J cell limit : AuthorityCode T _).run =
        some (.ok ⟨recordOf v, (recordOf v).ownerRows rows⟩) ∧
      List.Forall₂ (Row h cell (recordOf v).incarnation)
        (List.range' 1 (recordOf v).closedEpochs) rows := by
  obtain ⟨rows, hrows, hall⟩ := quiet_collectOwners hk hv (recordOf v).closedEpochs 1 [] le_rfl
    (by omega) fun p hp => nomatch hp
  refine ⟨rows, ?_, hall⟩
  have hload := quiet_load hk cell
  rw [hv] at hload
  refine (quiet_bindE hload).trans ((quiet_checkE (a := ()) ?_).trans
    ((quiet_bindE hrows).trans ((quiet_bindE hload).trans ?_)))
  · rw [reject_eq_ok, Bool.or_eq_false_iff, beq_eq_false_iff_ne, decide_eq_false_iff_not]
    exact ⟨hlimit, by omega⟩
  · change quiet h (ExceptT.run (if recordOf v = recordOf v then _ else _)) = _
    rw [if_pos rfl, nil_append]
    rfl

/-- The rows are of the epochs one, two and so on, up to the last that had an owner. -/
theorem Control.Valid.epochs_ownerRows (hc : c.Valid) {rows : List Control}
    (hr : rows.map (·.epoch) = List.range' 1 c.closedEpochs) :
    (c.ownerRows rows).map (·.epoch) = List.range' 1 c.ownerCount := by
  unfold Control.ownerRows
  split
  · next ho =>
    obtain ⟨hcount, hclosed⟩ := hc.ownerCount_of_owner ho
    rw [map_append, hr, hcount, ← hclosed, range'_1_concat, Nat.add_comm 1, hclosed]
    rfl
  · next ho => rw [hr, Control.closedEpochs_of_none ho]

end

/-! ## The history while others write -/

section
variable {s : Store Key Bytes T (Label T)}

/-- What a returned history is: one row for each epoch that had an owner, each a record with its
owner that the control object held. -/
structure CellOwnerHistory.Right (h : AuthorityHistory T) (H : CellOwnerHistory) : Prop where
  epochs : H.owners.map (·.epoch) = List.range' 1 H.current.ownerCount
  rows : ∀ c ∈ H.owners, Observed h c ∧ c.cell = H.current.cell

theorem CellOwnerHistory.Right.le (hle : h.Le h')
    {H : CellOwnerHistory} (hr : H.Right h) : H.Right h' :=
  ⟨hr.epochs, fun c hc => ⟨(hr.rows c hc).1.le hle, (hr.rows c hc).2⟩⟩

/-- The loop keeps one row for each epoch it passed. -/
theorem collectOwners_safe {current : Control} (remaining epoch : Nat) (owners : List Control)
    (hepoch : owners.map (·.epoch) = List.range' 1 epoch)
    (hrows : ∀ c ∈ owners, Observed s.objects c ∧ c.cell = cell)
    (hok : ∀ owners s', s.objects.Le s'.objects →
      owners.map (·.epoch) = List.range' 1 (epoch + remaining) →
      (∀ c ∈ owners, Observed s'.objects c ∧ c.cell = cell) → R (.ok owners) s')
    (herr : ∀ e s', R (.error e) s') :
    (authority J).Safe (collectOwners J cell current remaining (epoch + 1) owners) R s := by
  induction remaining generalizing epoch owners s with
  | zero => exact hok owners s (.refl _) hepoch hrows
  | succ remaining ih =>
    refine Regime.Safe.bindE (Regime.Safe.bindE (loadOwnerObservation_safe (Nat.succ_ne_zero _)
      fun s₁ hle₁ hi₁ => ⟨?_, herr _ _⟩))
    cases hv : (s₁.objects (.owner cell current.incarnation (epoch + 1))).head? with
    | none => exact herr _ _
    | some v =>
      obtain ⟨hobs, hcell, -, hep⟩ := ((hi₁.core.owner cell current.incarnation (epoch + 1)).1 v
        (mem_of_mem_head? hv)).2
      refine Regime.Safe.checkE (fun _ _ => ?_) fun e _ => herr e s₁
      refine ih (epoch + 1) (owners ++ [recordOf v]) ?_ ?_ fun owners' s₂ hle₂ he hr =>
        hok owners' s₂ (hle₁.trans hle₂) (by rw [he]; congr 1; omega) hr
      · rw [map_append, hepoch, range'_1_concat, Nat.add_comm 1, ← hep]
        rfl
      · exact forall_mem_append.2 ⟨fun c hc => ⟨(hrows c hc).1.le hle₁, (hrows c hc).2⟩,
          forall_mem_singleton.2 ⟨hobs, hcell⟩⟩

/-- A returned history is right. -/
theorem ownerHistory_safe
    (hok : ∀ H s', H.Right s'.objects → R (.ok H) s') (herr : ∀ e s', R (.error e) s') :
    (authority J).Safe (ownerHistory J cell limit) R s := by
  refine Regime.Safe.bindE (load_safe fun s₁ _ hi₁ => ⟨?_, herr _ _⟩)
  cases hv : s₁.objects (.control cell) with
  | nil => exact herr _ _
  | cons v vs =>
    have hvm : v ∈ s₁.objects (.control cell) := by rw [hv]; exact mem_cons_self ..
    obtain ⟨hst, hcell⟩ := (hi₁.core.control cell).scope v hvm
    refine Regime.Safe.checkE (fun _ _ => ?_) fun e _ => herr e s₁
    refine Regime.Safe.bindE (collectOwners_safe _ 0 [] rfl (fun c hc => nomatch hc)
      (fun owners s₂ hle₂ hep hrows => ?_) fun e s₂ => herr e s₂)
    refine Regime.Safe.bindE (load_safe fun s₃ hle₃ _ => ⟨?_, herr _ _⟩)
    cases hv₃ : s₃.objects (.control cell) with
    | nil => exact herr _ _
    | cons v₃ vs₃ =>
      change Regime.Safe _ (ExceptT.run (if recordOf v₃ = recordOf v then _ else _)) R s₃
      split
      · rw [Nat.zero_add] at hep
        refine hok _ s₃ ⟨hst.valid.epochs_ownerRows hep, fun c hc => ?_⟩
        rcases Control.mem_ownerRows.1 hc with hc | ⟨ho, rfl⟩
        · exact ⟨(hrows c hc).1.le hle₃, (hrows c hc).2.trans hcell.symm⟩
        · exact ⟨⟨ho, v, (hle₂.trans hle₃).mem (hcell.symm ▸ hvm), rfl⟩, rfl⟩
      · exact herr _ _

end

end

end Cellule
