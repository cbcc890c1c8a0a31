import Cellule.Control.Authority

/-!
# What the store ever held of a Cell

The protocol of the authority's clients. `Lineage` says of a control object that its first version
is a bootstrap record and that each later one was accepted from the version right before it, by a
client that held that version. Every write keeps it because a token names one body
(`Cas.TokensName`) and a body one record (`ControlCodec.encode_inj`): an update that takes effect
replaced what its sender observed.
-/

namespace Cellule

open Except Interleave Cas List

/-! ## Bodies name records -/

section
variable {J : ControlCodec} {c c' : Control} {b : Bytes}

theorem ControlCodec.encode_eq_ok : J.encode c = .ok b ↔
    c.validate = .ok () ∧ b.length ≤ maxControlBytes ∧ b = J.toVec c := by
  unfold ControlCodec.encode
  constructor
  · intro h
    obtain ⟨⟨⟩, hv, h⟩ := bind_eq_ok.1 h
    rw [reject_bind_eq_ok] at h
    obtain ⟨hlen, h⟩ := h
    cases h
    exact ⟨hv, by simpa using hlen, rfl⟩
  · rintro ⟨hv, hlen, rfl⟩
    rw [hv, ok_bind, reject_bind_eq_ok]
    exact ⟨by simpa using hlen, rfl⟩

/-- A body that was encoded decodes to its record. -/
theorem ControlCodec.decode_of_encode (h : J.encode c = .ok b) : J.decode b = .ok c := by
  obtain ⟨hv, hlen, rfl⟩ := ControlCodec.encode_eq_ok.1 h
  unfold ControlCodec.decode
  rw [reject_bind_eq_ok]
  refine ⟨by simpa using hlen, ?_⟩
  rw [J.fromSlice_toVec, ok_bind, hv, ok_bind, h, ok_bind, reject_bind_eq_ok]
  exact ⟨bne_self_eq_false _, rfl⟩

/-- One body is the encoding of one record. -/
theorem ControlCodec.encode_inj (h : J.encode c = .ok b) (h' : J.encode c' = .ok b) : c = c' := by
  have hd := ControlCodec.decode_of_encode h
  rw [ControlCodec.decode_of_encode h'] at hd
  cases hd
  rfl

end

/-! ## The protocol -/

section
variable (J : ControlCodec) {T : Type}

/-- The record a stored version carries. -/
abbrev recordOf (v : Version Bytes T (Label T)) : Control := v.label.record

/-- The version's body is the encoding of its writer's record. -/
def Stored (v : Version Bytes T (Label T)) : Prop := J.encode (recordOf v) = .ok v.body

/-- A version of the Cell's control object that a client was handed. -/
def Seen (h : AuthorityHistory T) (vc : VersionedControl T) : Prop :=
  ∃ v ∈ h (.control vc.value.cell), recordOf v = vc.value ∧ v.token = vc.token

/-- A record with an owner that the Cell's control object held. -/
def Observed (h : AuthorityHistory T) (c : Control) : Prop :=
  c.owner.isSome ∧ ∃ v ∈ h (.control c.cell), recordOf v = c

/-- The owner of the record's epoch is retained, from an observation not older than the record. -/
def Retained (h : AuthorityHistory T) (c : Control) : Prop :=
  ∃ v ∈ h (.owner c.cell c.incarnation c.epoch),
    (recordOf v).owner = c.owner ∧ c.revision ≤ (recordOf v).revision

/-- A successor that ends the ownership of its predecessor's owner. -/
def Control.Departs (c n : Control) : Prop := c.owner.isSome ∧ c.owner ≠ n.owner

/-- The bootstrap record of a Cell. -/
def Bootstrap (cell : CellId) (c : Control) : Prop :=
  ∃ incarnation owner code schema, Control.initial cell incarnation owner code schema = .ok c

/-- The versions of a control object, newest first: a bootstrap record, then records each accepted
from the version before it, which its writer observed; no owner left before it was retained. -/
def Lineage (h : AuthorityHistory T) (cell : CellId) :
    List (Version Bytes T (Label T)) → Prop
  | [] => True
  | [v] => Stored J v ∧ ∃ c, v.label = .created c ∧ Bootstrap cell c
  | v :: u :: vs => Lineage h cell (u :: vs) ∧ Stored J v ∧ ∃ n k,
      v.label = .transition ⟨recordOf u, u.token⟩ n k ∧
      (recordOf u).validateTransition n k = .ok () ∧
      ((recordOf u).Departs n → Retained h (recordOf u))

/-- The versions of an owner object: records of that epoch that the control object held, each of a
later revision than those before it. -/
def Observations (h : AuthorityHistory T) (cell : CellId) (incarnation : IncarnationId)
    (epoch : Nat) (vs : List (Version Bytes T (Label T))) : Prop :=
  (∀ v ∈ vs, Stored J v ∧ Observed h (recordOf v) ∧ (recordOf v).cell = cell ∧
    (recordOf v).incarnation = incarnation ∧ (recordOf v).epoch = epoch) ∧
  vs.Pairwise fun newer older => (recordOf older).revision < (recordOf newer).revision

/-- What each request is justified by when it is sent. -/
def Justified (h : AuthorityHistory T) :
    Request Key Bytes T (Label T) → Prop
  | .create (.control cell) body label =>
    ∃ c, label = .created c ∧ Bootstrap cell c ∧ J.encode c = .ok body
  | .update (.control cell) body expected label =>
    ∃ observed n k, label = .transition observed n k ∧ observed.value.cell = cell ∧
      observed.token = expected ∧ J.encode n = .ok body ∧
      observed.value.validateTransition n k = .ok () ∧ Seen h observed ∧
      (observed.value.Departs n → Retained h observed.value)
  | .create (.owner cell incarnation epoch) body label =>
    J.encode label.record = .ok body ∧ Observed h label.record ∧ label.record.cell = cell ∧
      label.record.incarnation = incarnation ∧ label.record.epoch = epoch
  | .update (.owner cell incarnation epoch) body expected label =>
    J.encode label.record = .ok body ∧ Observed h label.record ∧ label.record.cell = cell ∧
      label.record.incarnation = incarnation ∧ label.record.epoch = epoch ∧
      ∃ u ∈ h (.owner cell incarnation epoch), u.token = expected ∧
        (recordOf u).revision < label.record.revision

variable {J}

/-! ### Later versions undo none of it -/

section
variable {h h' : AuthorityHistory T} (hle : h.Le h')
include hle

theorem Seen.le (hs : Seen h vc) : Seen h' vc := by
  obtain ⟨v, hv, hr⟩ := hs
  exact ⟨v, hle.mem hv, hr⟩

theorem Observed.le (hs : Observed h c) : Observed h' c := by
  obtain ⟨ho, v, hv, hr⟩ := hs
  exact ⟨ho, v, hle.mem hv, hr⟩

theorem Retained.le (hs : Retained h c) : Retained h' c := by
  obtain ⟨v, hv, hr⟩ := hs
  exact ⟨v, hle.mem hv, hr⟩

theorem Lineage.le : ∀ {vs : List (Version Bytes T (Label T))},
    Lineage J h cell vs → Lineage J h' cell vs
  | [], _ => trivial
  | [_], hl => hl
  | _ :: _ :: _, ⟨hl, hst, n, k, hlab, hval, hret⟩ =>
    ⟨Lineage.le hl, hst, n, k, hlab, hval, fun hd => (hret hd).le hle⟩

theorem Observations.le (ho : Observations J h cell incarnation epoch vs) :
    Observations J h' cell incarnation epoch vs := by
  refine ⟨fun v hv => ?_, ho.2⟩
  obtain ⟨hst, hobs, hscope⟩ := ho.1 v hv
  exact ⟨hst, hobs.le hle, hscope⟩

theorem Justified.le (hj : Justified J h q) : Justified J h' q := by
  match q, hj with
  | .create (.control _) _ _, hj => exact hj
  | .update (.control _) _ _ _, ⟨o, n, k, hl, hc, ht, he, hv, hs, hr⟩ =>
    exact ⟨o, n, k, hl, hc, ht, he, hv, hs.le hle, fun hd => (hr hd).le hle⟩
  | .create (.owner _ _ _) _ _, ⟨he, ho, hscope⟩ => exact ⟨he, ho.le hle, hscope⟩
  | .update (.owner _ _ _) _ _ _, ⟨he, ho, hc, hi, hep, u, hu, hrest⟩ =>
    exact ⟨he, ho.le hle, hc, hi, hep, u, hle.mem hu, hrest⟩

end

/-! ### The stored history goes forward -/

section
variable {h : AuthorityHistory T} {cell : CellId}

variable {vs : List (Version Bytes T (Label T))} {v : Version Bytes T (Label T)}

/-- Every version of a control object carries a record of its Cell, as its writer encoded it. -/
theorem Lineage.scope (hl : Lineage J h cell vs) :
    ∀ v ∈ vs, Stored J v ∧ (recordOf v).cell = cell := by
  induction vs with
  | nil => exact fun v hv => nomatch hv
  | cons v vs ih =>
    match vs, hl with
    | [], ⟨hst, c, hlab, _, _, _, _, hinit⟩ =>
      intro w hw
      rw [mem_singleton.1 hw]
      refine ⟨hst, ?_⟩
      rw [recordOf, hlab]
      exact (Control.initial_ok hinit).2.1
    | u :: vs, ⟨hrest, hst, n, k, hlab, hval, _⟩ =>
      intro w hw
      rcases mem_cons.1 hw with rfl | hw
      · refine ⟨hst, ?_⟩
        rw [recordOf, hlab]
        exact (Control.validateTransition_ok hval).1.cell.trans
          (ih hrest u (mem_cons_self ..)).2
      · exact ih hrest w hw

/-- What the newest version of a control object did to the one before it. -/
theorem Lineage.link (hl : Lineage J h cell (v :: u :: vs)) :
    ∃ k, v.label = .transition ⟨recordOf u, u.token⟩ (recordOf v) k ∧
      (recordOf u).Succeeds (recordOf v) ∧ (recordOf u).Step (recordOf v) k ∧
      ((recordOf u).Departs (recordOf v) → Retained h (recordOf u)) := by
  obtain ⟨-, -, n, k, hlab, hval, hret⟩ := hl
  have hn : recordOf v = n := by rw [recordOf, hlab]; rfl
  obtain ⟨hs, hstep⟩ := Control.validateTransition_ok hval
  rw [hn]
  exact ⟨k, hlab, hs, hstep, hret⟩

/-- The part of a control object's history before any of its versions is one too. -/
theorem Lineage.tail (hl : Lineage J h cell (v :: vs)) : Lineage J h cell vs := by
  cases vs with
  | nil => trivial
  | cons u vs => exact hl.1

/-- Every version is before every later one. -/
theorem Lineage.pairwise (hl : Lineage J h cell vs) :
    vs.Pairwise fun newer older => (recordOf older).Before (recordOf newer) := by
  induction vs with
  | nil => exact .nil
  | cons v vs ih =>
    have hrest := ih hl.tail
    refine pairwise_cons.2 ⟨?_, hrest⟩
    cases vs with
    | nil => exact fun w hw => nomatch hw
    | cons u vs =>
      obtain ⟨k, -, hs, hstep, -⟩ := hl.link
      have hbefore := hstep.before hs
      intro w hw
      rcases mem_cons.1 hw with rfl | hw
      · exact hbefore
      · exact ((pairwise_cons.1 hrest).1 w hw).trans hbefore

/-- Two versions of a control object are the same record, or one is before the other. -/
theorem Lineage.total (hl : Lineage J h cell vs) (hv : v ∈ vs) (hw : w ∈ vs) :
    recordOf v = recordOf w ∨ (recordOf v).Before (recordOf w) ∨
      (recordOf w).Before (recordOf v) := by
  induction vs with
  | nil => cases hv
  | cons x vs ih =>
    obtain ⟨hx, -⟩ := pairwise_cons.1 hl.pairwise
    rcases mem_cons.1 hv with hvx | hv' <;> rcases mem_cons.1 hw with hwx | hw'
    · exact .inl (by rw [hvx, hwx])
    · exact .inr (.inr (hvx ▸ hx w hw'))
    · exact .inr (.inl (hwx ▸ hx v hv'))
    · exact ih hl.tail hv' hw'

end

/-! ### Every effect keeps the protocol -/

/-- What the histories of the authority's objects satisfy. -/
structure Kept (J : ControlCodec) (h : AuthorityHistory T) : Prop where
  control : ∀ cell, Lineage J h cell (h (.control cell))
  owner : ∀ cell incarnation epoch,
    Observations J h cell incarnation epoch (h (.owner cell incarnation epoch))

/-- What a new version of an object has to satisfy. -/
def Extends (J : ControlCodec) (h h' : AuthorityHistory T)
    (v : Version Bytes T (Label T)) : Key → Prop
  | .control cell => Lineage J h' cell (v :: h (.control cell))
  | .owner cell incarnation epoch =>
    Observations J h' cell incarnation epoch (v :: h (.owner cell incarnation epoch))

variable {h : AuthorityHistory T} {v : Version Bytes T (Label T)}
  {vs : List (Version Bytes T (Label T))}

/-- A new version of one object leaves the others as they are. -/
theorem Kept.put (hk : Kept J h) (hv : Extends J h (h.put k v) v k) : Kept J (h.put k v) := by
  have hle := h.le_put k v
  constructor
  · intro cell
    by_cases hc : .control cell = k
    · subst hc
      rw [History.put_self]
      exact hv
    · rw [History.put_of_ne h v hc]
      exact (hk.control cell).le hle
  · intro cell incarnation epoch
    by_cases hc : .owner cell incarnation epoch = k
    · subst hc
      rw [History.put_self]
      exact hv
    · rw [History.put_of_ne h v hc]
      exact (hk.owner cell incarnation epoch).le hle

/-- Versions of one object with one token carry one record. -/
theorem record_of_token (hn : TokensName vs) (hu : u ∈ vs)
    (hv : v ∈ vs) (ht : u.token = v.token) (hsu : Stored J u) (hsv : Stored J v) :
    recordOf u = recordOf v := by
  have hb : u.body = v.body := hn u hu v hv ht
  unfold Stored at hsu
  rw [hb] at hsu
  exact ControlCodec.encode_inj hsu hsv

/-- An update of a control object that takes effect replaced the record its sender observed. -/
theorem Kept.update_control (hk : Kept J h) (hn : TokensName (h (.control cell)))
    (hv : h (.control cell) = v :: vs)
    (hc : observed.value.cell = cell) (hs : Seen h observed) (ht : v.token = observed.token) :
    observed = ⟨recordOf v, v.token⟩ := by
  subst hc
  obtain ⟨u, hu, hrec, htok⟩ := hs
  have hvm : v ∈ h (.control observed.value.cell) := by rw [hv]; exact mem_cons_self ..
  have hsame := record_of_token hn hu hvm (htok.trans ht.symm)
    ((hk.control _).scope u hu).1 ((hk.control _).scope v hvm).1
  cases observed with
  | mk value token => simp only at hrec ht; rw [← hrec, hsame, ht]

/-- An observation of a later revision extends the observations of its epoch. -/
theorem Observations.cons (ho : Observations J h cell incarnation epoch vs) (hst : Stored J v)
    (hobs : Observed h (recordOf v)) (hc : (recordOf v).cell = cell)
    (hi : (recordOf v).incarnation = incarnation) (he : (recordOf v).epoch = epoch)
    (hlt : ∀ u, vs.head? = some u → (recordOf u).revision < (recordOf v).revision) :
    Observations J h cell incarnation epoch (v :: vs) := by
  refine ⟨fun w hw => ?_, pairwise_cons.2 ⟨fun w hw => ?_, ho.2⟩⟩
  · rcases mem_cons.1 hw with rfl | hw
    · exact ⟨hst, hobs, hc, hi, he⟩
    · exact ho.1 w hw
  · cases vs with
    | nil => cases hw
    | cons u vs =>
      have hu := hlt u rfl
      rcases mem_cons.1 hw with rfl | hw
      · exact hu
      · exact ((pairwise_cons.1 ho.2).1 w hw).trans hu

/-- The effect of a justified request keeps the histories. -/
theorem Kept.apply (hk : Kept J h) (hn : ∀ k, TokensName (h k)) (hj : Justified J h q)
    (ha : Applies h q t h') : Kept J h' := by
  have hle := ha.le
  rw [ha.eq] at hle ⊢
  refine hk.put ?_
  match q, hj with
  | .create (.control cell) b l, ⟨c, hl, hboot, henc⟩ =>
    cases ha with
    | create absent =>
      subst hl
      change Lineage J _ cell (_ :: h (.control cell))
      rw [absent]
      exact ⟨henc, c, rfl, hboot⟩
  | .update (.control cell) b e l, ⟨observed, n, k, hl, hc, ht, henc, hval, hs, hr⟩ =>
    cases ha with
    | @update _ _ _ _ _ v vs found same names =>
      subst hl
      have hobs := hk.update_control (hn _) found hc hs (same.trans ht.symm)
      change Lineage J _ cell (_ :: h (.control cell))
      have hlin := (hk.control cell).le hle
      rw [found] at hlin ⊢
      subst hobs
      exact ⟨hlin, henc, n, k, rfl, hval, fun hd => (hr hd).le hle⟩
  | .create (.owner cell incarnation epoch) b l, ⟨henc, ho, hc, hi, he⟩ =>
    cases ha with
    | create absent =>
      refine ((hk.owner cell incarnation epoch).le hle).cons henc (ho.le hle) hc hi he
        fun u hu => ?_
      rw [absent] at hu
      cases hu
  | .update (.owner cell incarnation epoch) b e l, ⟨henc, ho, hc, hi, hep, u, hu, htok, hrev⟩ =>
    cases ha with
    | @update _ _ _ _ _ v vs found same names =>
      refine ((hk.owner cell incarnation epoch).le hle).cons henc (ho.le hle) hc hi hep
        fun w hw => ?_
      rw [found, head?_cons, Option.some.injEq] at hw
      subst hw
      have hvm : v ∈ h (.owner cell incarnation epoch) := by rw [found]; exact mem_cons_self ..
      have hobs := (hk.owner cell incarnation epoch).1
      rw [← record_of_token (hn _) hu hvm (htok.trans same.symm) (hobs u hu).1 (hobs v hvm).1]
      exact hrev

variable (J) in
/-- The protocol of the authority's clients. -/
def authority : Protocol Key Bytes T (Label T) where
  just := Justified J
  core := Kept J
  just_le hj hle := hj.le hle
  core_apply hk hn hj ha := hk.apply hn hj ha

end

end Cellule
