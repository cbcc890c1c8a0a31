import Cellule.Control.Lineage

/-!
# The authority's code keeps to its protocol

One safety lemma for each function of the authority, by the rules of `Cellule.Lib.Cas`: what it
sends is justified, and what it returns is what the store held. An object that its clients wrote
always decodes, so the only errors left are those of the store and those a caller asked for.
-/

namespace Cellule

open Except Interleave Cas List Option

section
variable {J : ControlCodec} {T α : Type} {s : Store Key Bytes T (Label T)}

/-! ## Reads -/

theorem getBounded_safe (h : ∀ s', s.objects.Le s'.objects → (authority J).Inv s' →
      R (.ok (current (s'.objects key))) s' ∧ R (.error .storage) s') :
    (authority J).Safe (getBounded key) R s := by
  refine Regime.Safe.bindE (Protocol.safe_get fun s' hle hi => ?_)
  obtain ⟨hok, herr⟩ := h s' hle hi
  refine ⟨Regime.Safe.checkE (fun _ _ => hok) fun e he => ?_, fun _ => herr⟩
  -- the only error of the check is a failure of the store
  unfold reject at he
  split at he
  · cases he
    exact herr
  · cases he

variable {h : AuthorityHistory T} {cell : CellId} {c : Control}

/-- What a load makes of a control object its clients wrote. -/
theorem Kept.decodeControl (hk : Kept J h) (cell : CellId) :
    decodeControl J cell (current (h (.control cell))) =
      .ok ((h (.control cell)).head?.map fun v => ⟨recordOf v, v.token⟩) := by
  have hscope := (hk.control cell).scope
  cases hv : h (.control cell) with
  | nil => rfl
  | cons v vs =>
    rw [hv] at hscope
    obtain ⟨hst, hcell⟩ := hscope v (mem_cons_self ..)
    have hdec : J.decode v.body = .ok (recordOf v) := ControlCodec.decode_of_encode hst
    simp only [current, head?_cons, map_some, Cellule.decodeControl]
    rw [hdec, ok_bind, hcell, bne_self_eq_false]
    rfl

/-- What a load makes of an owner object its clients wrote. -/
theorem Kept.decodeObservation (hk : Kept J h) (cell : CellId) (incarnation : IncarnationId)
    (epoch : Nat) :
    decodeObservation J cell incarnation epoch (current (h (.owner cell incarnation epoch))) =
      .ok ((h (.owner cell incarnation epoch)).head?.map fun v => (recordOf v, v.token)) := by
  have hobs := (hk.owner cell incarnation epoch).1
  cases hv : h (.owner cell incarnation epoch) with
  | nil => rfl
  | cons v vs =>
    rw [hv] at hobs
    obtain ⟨hst, ⟨howner, -⟩, hcell, hinc, hep⟩ := hobs v (mem_cons_self ..)
    have hdec : J.decode v.body = .ok (recordOf v) := ControlCodec.decode_of_encode hst
    simp only [current, head?_cons, map_some, Cellule.decodeObservation]
    rw [hdec, ok_bind, hcell, hinc, hep, bne_self_eq_false, bne_self_eq_false,
      bne_self_eq_false, isNone_eq_false_iff.2 howner]
    rfl

/-- A load returns the current version of the control object. -/
theorem load_safe (h : ∀ s', s.objects.Le s'.objects → (authority J).Inv s' →
      R (.ok ((s'.objects (.control cell)).head?.map fun v => ⟨recordOf v, v.token⟩)) s' ∧
      R (.error .storage) s') :
    (authority J).Safe (load J cell) R s := by
  refine Regime.Safe.bindE (getBounded_safe fun s' hle hi => ?_)
  obtain ⟨hok, herr⟩ := h s' hle hi
  refine ⟨?_, herr⟩
  rw [Regime.outcome, hi.core.decodeControl cell]
  exact hok

/-- A load of an owner observation returns the current version of the owner object. -/
theorem loadOwnerObservation_safe (hepoch : epoch ≠ 0)
    (h : ∀ s', s.objects.Le s'.objects → (authority J).Inv s' →
      R (.ok ((s'.objects (.owner cell incarnation epoch)).head?.map fun v =>
      (recordOf v, v.token))) s' ∧ R (.error .storage) s') :
    (authority J).Safe (loadOwnerObservation J cell incarnation epoch) R s := by
  refine Regime.Safe.checkE (fun _ _ => ?_) fun e he => ?_
  · refine Regime.Safe.bindE (getBounded_safe fun s' hle hi => ?_)
    obtain ⟨hok, herr⟩ := h s' hle hi
    refine ⟨?_, herr⟩
    rw [Regime.outcome, hi.core.decodeObservation cell incarnation epoch]
    exact hok
  · rw [beq_eq_false_iff_ne.2 hepoch] at he
    cases he

/-! ## Retaining an owner -/

/-- Two records with an owner, of one epoch of one Cell's history, never conflict: the check says
which is the later one. -/
theorem retained_eq (h : p = o ∨ p.Before o ∨ o.Before p) (hp : p.owner.isSome)
    (ho : o.owner.isSome) (he : p.epoch = o.epoch) :
    retained p o = .ok (decide (p.revision ≥ o.revision)) := by
  rcases h with rfl | h | h
  · simp [retained, checkedSub]
  · have hrev := h.revision
    have hprog := h.progress
    have howner := h.same_owner he.symm ho
    have hlt : ¬ p.revision ≥ o.revision := by omega
    have hne : (p.revision == o.revision) = false := beq_eq_false_iff_ne.2 (by omega)
    have hsub : checkedSub o.progress p.progress = some (o.revision - p.revision) := by
      rw [checkedSub, if_pos (by omega), some.injEq]
      omega
    simp [retained, hlt, hsub, howner, h.cell, h.incarnation, he, hne]
  · have hrev := h.revision
    have hprog := h.progress
    have howner := h.same_owner he hp
    have hge : p.revision ≥ o.revision := by omega
    have hne : (p.revision == o.revision) = false := beq_eq_false_iff_ne.2 (by omega)
    have hsub : checkedSub p.progress o.progress = some (p.revision - o.revision) := by
      rw [checkedSub, if_pos (by omega), some.injEq]
      omega
    simp [retained, hge, hsub, howner, h.cell, h.incarnation, he, hne]

/-- A retained observation names the owner of every record of its epoch, and the check on the two
says which is the later one. -/
theorem Kept.observation (hk : Kept J h) (hc : Observed h c)
    (hv : v ∈ h (.owner c.cell c.incarnation c.epoch)) :
    (recordOf v).owner = c.owner ∧
      retained (recordOf v) c = .ok (decide ((recordOf v).revision ≥ c.revision)) := by
  obtain ⟨-, ⟨hvo, x, hx, hxv⟩, hcell, -, hep⟩ := (hk.owner _ _ _).1 v hv
  obtain ⟨hco, y, hy, hyc⟩ := hc
  rw [hcell] at hx
  have htotal := (hk.control c.cell).total hx hy
  rw [hxv, hyc] at htotal
  refine ⟨?_, retained_eq htotal hvo hco hep⟩
  rcases htotal with heq | hb | hb
  · rw [heq]
  · exact (hb.same_owner hep.symm hco).symm
  · exact hb.same_owner hep hvo

/-- The write of an observation is justified against what was found, and retains the owner. -/
theorem writeOwner_safe (hobs : Observed s.objects c) (hbody : J.encode c = .ok body)
    (hprev : ∀ p t, previous = some (p, t) → ∃ u ∈ s.objects (.owner c.cell c.incarnation c.epoch),
      recordOf u = p ∧ u.token = t ∧ p.revision < c.revision)
    (h : ∀ s', s.objects.Le s'.objects → (authority J).Inv s' → R (.error .storage) s' ∧
      ∀ t, Retained s'.objects c → R (.ok t) s') :
    (authority J).Safe (writeOwner c body previous) R s := by
  cases hp : previous with
  | none =>
    refine Protocol.safe_write fun s₁ hle₁ hi₁ => ⟨?_, fun s₂ hle₂ hi₂ => ?_⟩
    · exact ⟨hbody, hobs.le hle₁, rfl, rfl, rfl⟩
    · obtain ⟨herr, hok⟩ := h s₂ (hle₁.trans hle₂) hi₂
      exact ⟨fun _ => herr, fun t ht => hok t ⟨_, ht, rfl, le_rfl⟩⟩
  | some pt =>
    obtain ⟨p, t⟩ := pt
    obtain ⟨u, hu, hup, hut, hrev⟩ := hprev p t hp
    refine Protocol.safe_write fun s₁ hle₁ hi₁ => ⟨?_, fun s₂ hle₂ hi₂ => ?_⟩
    · exact ⟨hbody, hobs.le hle₁, rfl, rfl, rfl, u, hle₁.mem hu, hut, hup.symm ▸ hrev⟩
    · obtain ⟨herr, hok⟩ := h s₂ (hle₁.trans hle₂) hi₂
      exact ⟨fun _ => herr, fun t ht => hok t ⟨_, ht, rfl, le_rfl⟩⟩

/-- The second half of `retain_owner` is safe: a write that failed is looked at once more. -/
theorem retainOwner_safe (hobs : Observed s.objects c) (hepoch : c.epoch ≠ 0)
    (hok : ∀ s', s.objects.Le s'.objects → (authority J).Inv s' → Retained s'.objects c →
      R (.ok ()) s')
    (herr : ∀ e s', R (.error e) s') : (authority J).Safe (retainOwner J c) R s := by
  -- an observation that the check finds covered retains the owner
  have hcovered {s' : Store Key Bytes T (Label T)} (hle : s.objects.Le s'.objects)
      (hi : (authority J).Inv s') {v : Version Bytes T (Label T)}
      (hv : v ∈ s'.objects (.owner c.cell c.incarnation c.epoch)) {b : Bool}
      (hb : retained (recordOf v) c = .ok b) :
      (b = true → Retained s'.objects c) ∧ (b = false → (recordOf v).revision < c.revision) := by
    obtain ⟨howner, hret⟩ := hi.core.observation (hobs.le hle) hv
    rw [hret, ok.injEq] at hb
    subst hb
    exact ⟨fun hb => ⟨v, hv, howner, of_decide_eq_true hb⟩,
      fun hb => not_le.1 (of_decide_eq_false hb)⟩
  refine Regime.Safe.checkE (fun body hbody => ?_) fun e _ => herr e s
  refine Regime.Safe.bindE (loadOwnerObservation_safe hepoch fun s₁ hle₁ hi₁ => ⟨?_, herr _ _⟩)
  refine Regime.Safe.checkE (fun covered hc => ?_) fun e _ => herr e s₁
  -- what the first look found, and what the check said of it
  have hfound : ∀ p t,
      ((s₁.objects (.owner c.cell c.incarnation c.epoch)).head?.map
        fun v => (recordOf v, v.token)) = some (p, t) →
      ∃ u ∈ s₁.objects (.owner c.cell c.incarnation c.epoch), recordOf u = p ∧ u.token = t := by
    intro p t hpt
    obtain ⟨u, hu, hut⟩ := map_eq_some_iff.1 hpt
    cases hut
    exact ⟨u, mem_of_mem_head? hu, rfl, rfl⟩
  generalize hprev : ((s₁.objects (.owner c.cell c.incarnation c.epoch)).head?.map
    fun v => (recordOf v, v.token)) = previous at hc hfound
  cases covered with
  | true =>
    cases previous with
    | none => cases hc
    | some pt =>
      obtain ⟨u, hu, hup, -⟩ := hfound pt.1 pt.2 rfl
      have hret : retained (recordOf u) c = .ok true := by rw [hup]; exact hc
      exact hok s₁ hle₁ hi₁ ((hcovered hle₁ hi₁ hu hret).1 rfl)
  | false =>
    refine Regime.Safe.attemptE (writeOwner_safe (hobs.le hle₁) hbody (fun p t hpt => ?_)
      fun s₂ hle₂ hi₂ => ⟨?_, fun t hret => hok s₂ (hle₁.trans hle₂) hi₂ hret⟩)
    · subst hpt
      obtain ⟨u, hu, hup, hut⟩ := hfound p t rfl
      have hret : retained (recordOf u) c = .ok false := by rw [hup]; exact hc
      exact ⟨u, hu, hup, hut, hup ▸ (hcovered hle₁ hi₁ hu hret).2 rfl⟩
    · refine Regime.Safe.attemptE (loadOwnerObservation_safe hepoch fun s₃ hle₃ hi₃ =>
        ⟨?_, herr _ _⟩)
      have hle := hle₁.trans (hle₂.trans hle₃)
      cases hv : s₃.objects (.owner c.cell c.incarnation c.epoch) with
      | nil => exact herr _ _
      | cons v vs =>
        have hvm : v ∈ s₃.objects (.owner c.cell c.incarnation c.epoch) := by
          rw [hv]; exact mem_cons_self ..
        refine Regime.Safe.checkE (fun b hb => ?_) fun e _ => herr e s₃
        cases b with
        | true => exact hok s₃ hle hi₃ ((hcovered hle hi₃ hvm hb).1 rfl)
        | false => exact herr _ _

/-! ## Writing control records -/

/-- A creation returns a version the control object held. -/
theorem createInitial_safe
    (hok : ∀ vc s', Seen s'.objects vc → R (.ok vc) s') (herr : ∀ e s', R (.error e) s') :
    (authority J).Safe (createInitial J cell incarnation owner code schema) R s := by
  refine Regime.Safe.checkE (fun c hc => ?_) fun e _ => herr e s
  refine Regime.Safe.checkE (fun body hbody => ?_) fun e _ => herr e s
  have hcell : c.cell = cell := (Control.initial_ok hc).2.1
  refine Regime.Safe.attemptE (Protocol.safe_write fun s₁ _ _ =>
    ⟨⟨c, rfl, ⟨_, _, _, _, hc⟩, hbody⟩, fun s₂ _ _ => ⟨fun _ => ?_, fun t ht => ?_⟩⟩)
  · refine Regime.Safe.bindE (load_safe fun s₃ _ hi₃ => ⟨?_, herr _ _⟩)
    cases hv : s₃.objects (.control cell) with
    | nil => exact herr _ _
    | cons v vs =>
      have hvm : v ∈ s₃.objects (.control cell) := by rw [hv]; exact mem_cons_self ..
      have hvc : (recordOf v).cell = cell := ((hi₃.core.control cell).scope v hvm).2
      change Regime.Safe _ (ExceptT.run (if recordOf v = c then _ else _)) R s₃
      split
      · exact hok _ s₃ ⟨v, hvc.symm ▸ hvm, rfl, rfl⟩
      · exact herr _ _
  · exact hok _ s₂ ⟨_, hcell.symm ▸ ht, rfl, rfl⟩

/-- A question about bundles, asked only under a condition, changes nothing. -/
theorem consult_safe {c : Bool} {x : AuthorityCode T Unit} {k : Unit → AuthorityCode T α}
    (hx : x = throw .fenced ∨ ∃ q, x = Cas.ask q)
    {R : Result α → Store Key Bytes T (Label T) → Prop}
    (hk : ∀ s', s.objects.Le s'.objects → (authority J).Safe (k ()) R s')
    (herr : ∀ e s', R (.error e) s') :
    (authority J).Safe (Prog.onlyIf c x >>= k) R s := by
  refine Regime.Safe.bindE (Regime.Safe.onlyIf (fun _ => ?_) fun _ => hk s (.refl _))
  rcases hx with rfl | ⟨q, rfl⟩
  · exact herr _ s
  · refine Protocol.safe_ask fun s' r hle _ => ?_
    cases r with
    | ok _ => exact hk s' hle
    | error e => exact herr e s'

/-- A transition sends a justified update, after the departing owner is retained. -/
theorem transition_safe {next : Control} (hseen : Seen s.objects observed)
    {R : Result (VersionedControl T) → Store Key Bytes T (Label T) → Prop}
    (hok : ∀ vc s', Seen s'.objects vc → R (.ok vc) s') (herr : ∀ e s', R (.error e) s') :
    (authority J).Safe (transition J observed next kind) R s := by
  refine Regime.Safe.checkE (fun _ hval => ?_) fun e _ => herr e s
  obtain ⟨hs, -⟩ := Control.validateTransition_ok hval
  refine consult_safe (.inr ⟨_, rfl⟩) (fun s₁ hle₁ => ?_) herr
  refine consult_safe ?_ (fun s₂ hle₂ => ?_) herr
  · cases next.recovery.or observed.value.recovery with
    | none => exact .inl rfl
    | some r => exact .inr ⟨_, rfl⟩
  refine consult_safe (.inr ⟨_, rfl⟩) (fun s₃ hle₃ => ?_) herr
  have hle : s.objects.Le s₃.objects := hle₁.trans (hle₂.trans hle₃)
  -- the write, from any later store in which a departing owner is retained
  have hwrite : ∀ s₄, s₃.objects.Le s₄.objects →
      (observed.value.Departs next → Retained s₄.objects observed.value) →
      (authority J).Safe (swapControl J observed next kind) R s₄ := by
    intro s₄ hle₄ hret
    refine Regime.Safe.checkE (fun body hbody => ?_) fun e _ => herr e s₄
    refine Regime.Safe.bindE (Protocol.safe_write fun s₅ hle₅ _ =>
      ⟨⟨observed, next, kind, rfl, rfl, rfl, hbody, hval, hseen.le (hle.trans (hle₄.trans hle₅)),
        fun hd => (hret hd).le hle₅⟩, fun s₆ _ _ => ⟨fun _ => herr _ _, fun t ht => ?_⟩⟩)
    exact hok _ s₆ ⟨_, hs.cell.symm ▸ ht, rfl, rfl⟩
  refine Regime.Safe.bindE (Regime.Safe.onlyIf (fun hd => ?_) fun hd =>
    hwrite s₃ (.refl _) fun ⟨ho, hne⟩ => ?_)
  · rw [Bool.and_eq_true] at hd
    obtain ⟨v, hv, hrec, -⟩ := hseen
    exact retainOwner_safe ⟨hd.1, v, hle.mem hv, hrec⟩ hs.valid.epoch.ne'
      (fun s₄ hle₄ _ hret => hwrite s₄ hle₄ fun _ => hret) fun e s₄ => herr e s₄
  · rw [ho, Bool.true_and, bne_eq_false_iff_eq] at hd
    exact (hne hd).elim

end

end Cellule
