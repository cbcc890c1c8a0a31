import Cellule.Lib.Interleave

/-!
# Objects written by create-if-absent and compare-and-swap

A store of objects, each with every version it ever held. Creation takes effect only on an object
that was never written, an update only while the current version has the token that the request
names. A request, once sent, may take effect at any later time, so a lost reply, a timeout and a
delayed write are all covered. Two versions of one object with the same token have the same body,
which holds of version numbers and of content hashes.

A version carries a label, the sender's account of the request, which is not stored: it lets an
invariant say who wrote what. A `Protocol` states what every request is justified by and what the
histories then satisfy; `Protocol.safe_get` and `Protocol.safe_write` prove programs safe for
`Interleave.Keeps.reachable`.
-/

namespace Cas

open Interleave List

variable {K B T L Q F E Call Reply α β : Type}

/-- A version of an object: its body, its token and the label of the request that wrote it. -/
structure Version (B T L : Type) where
  body : B
  token : T
  label : L

/-- A conditional write. -/
inductive Request (K B T L : Type) where
  | create (key : K) (body : B) (label : L)
  | update (key : K) (body : B) (expected : T) (label : L)

/-- Every version of every object, newest first. -/
abbrev History (K B T L : Type) := K → List (Version B T L)

/-- The objects, and the requests that were sent. -/
structure Store (K B T L : Type) where
  objects : History K B T L
  sent : Set (Request K B T L)

/-- The store no request was sent to. -/
def Store.empty : Store K B T L := ⟨fun _ => [], ∅⟩

/-- What a reader sees of an object: the current body and token. -/
def current (vs : List (Version B T L)) : Option (B × T) := vs.head?.map fun v => (v.body, v.token)

/-- The operations: a read, a conditional write, and a question about anything else, whose answer
is left open. -/
inductive Op (K B T L Q : Type) where
  | get (key : K)
  | write (q : Request K B T L)
  | ask (question : Q)

/-- The answers; an operation on the store may fail with any failure of the store. -/
def Ret (F E : Type) : Op K B T L Q → Type
  | .get _ => Except F (Option (B × T))
  | .write _ => Except F T
  | .ask _ => Except E Unit

/-- A fallible program over the store. -/
abbrev Code (K B T L Q F E : Type) := ExceptT E (Prog (Op K B T L Q) (Ret F E))

section
variable (into : F → E)

/-- Reads an object; a failure of the store becomes the program's own error. -/
def get (k : K) : Code K B T L Q F E (Option (B × T)) :=
  ExceptT.mk (.call (Op.get k) fun r => .done (Except.mapError into r))

/-- Sends a conditional write. -/
def write (q : Request K B T L) : Code K B T L Q F E T :=
  ExceptT.mk (.call (Op.write q) fun r => .done (Except.mapError into r))

/-- Creates an object that must not exist. -/
def create (k : K) (b : B) (l : L) : Code K B T L Q F E T := write into (.create k b l)

/-- Replaces an object whose token must be `t`. -/
def update (k : K) (b : B) (t : T) (l : L) : Code K B T L Q F E T := write into (.update k b t l)

end

/-- Asks a question that the modelled objects do not answer. -/
def ask (q : Q) : Code K B T L Q F E Unit :=
  ExceptT.mk (Prog.op (Op.ask q))

section
variable [DecidableEq K]

/-- A new version of one object. -/
def History.put (h : History K B T L) (k : K) (v : Version B T L) : History K B T L :=
  Function.update h k (v :: h k)

/-- The request takes effect on the objects, as a version with token `t`. -/
inductive Applies (h : History K B T L) : Request K B T L → T → History K B T L → Prop where
  | create {k b l t} (absent : h k = []) : Applies h (.create k b l) t (h.put k ⟨b, t, l⟩)
  | update {k b l e t v vs} (found : h k = v :: vs) (same : v.token = e)
      (names : ∀ u ∈ h k, u.token = t → u.body = b) :
      Applies h (.update k b e l) t (h.put k ⟨b, t, l⟩)

/-- The meaning of the operations. A write that reports an error may still take effect later. -/
def sem : (o : Op K B T L Q) → Store K B T L → Ret F E o → Store K B T L → Prop
  | .get k, s, r, s' => s' = s ∧ ∀ x, r = .ok x → x = current (s.objects k)
  | .write q, s, r, s' => s'.sent = insert q s.sent ∧ match (r : Except F T) with
      | .ok t => Applies s.objects q t s'.objects
      | .error _ => s'.objects = s.objects
  | .ask _, s, _, s' => s' = s

/-- A request that was sent takes effect. -/
def drift (s s' : Store K B T L) : Prop :=
  s'.sent = s.sent ∧ ∃ q ∈ s.sent, ∃ t, Applies s.objects q t s'.objects

/-- A store with the given calls. -/
def service (code : Call → Prog (Op K B T L Q) (Ret F E) Reply) (may : Set Reply → Call → Prop) :
    Service (Op K B T L Q) (Ret F E) (Store K B T L) Call Reply :=
  ⟨sem, drift, code, may⟩

end

/-! ## Undisturbed reads -/

/-- The result of a program that only reads, while the store answers and nobody writes. -/
def quiet (h : History K B T L) : Prog (Op K B T L Q) (Ret F E) α → Option α
  | .done a => some a
  | .call (.get k) f => quiet h (f (.ok (current (h k))))
  | .call (.write _) _ => none
  | .call (.ask _) _ => none

theorem quiet_bind (h : History K B T L) (p : Prog (Op K B T L Q) (Ret F E) α)
    (f : α → Prog (Op K B T L Q) (Ret F E) β) :
    quiet h (p.bind f) = (quiet h p).bind fun a => quiet h (f a) := by
  induction p with
  | done a => rfl
  | call o k ih =>
    cases o with
    | get k' => exact ih _
    | write q => rfl
    | ask q => rfl

/-- An undisturbed read returns what the object holds. -/
theorem quiet_get (h : History K B T L) (into : F → E) (k : K) :
    quiet h (get into k : Code K B T L Q F E _).run = some (.ok (current (h k))) := rfl

variable {h : History K B T L} {a : α}

/-- The first part succeeded, and the rest goes on from its result. -/
theorem quiet_bindE {x : Code K B T L Q F E α} {f : α → Code K B T L Q F E β}
    (hx : quiet h x.run = some (.ok a)) : quiet h (x >>= f).run = quiet h (f a).run := by
  refine (quiet_bind h x.run _).trans ?_
  rw [hx]
  rfl

/-- A result that needs no store. -/
theorem quiet_lift {x : Except E α} (hx : x = .ok a) :
    quiet h (liftM x : Code K B T L Q F E α).run = some (.ok a) := by
  rw [hx]
  rfl

/-- A check that passed. -/
theorem quiet_checkE {x : Except E α} {f : α → Code K B T L Q F E β} (hx : x = .ok a) :
    quiet h ((liftM x : Code K B T L Q F E α) >>= f).run = quiet h (f a).run :=
  quiet_bindE (quiet_lift hx)

/-! ## Histories -/

/-- Two versions of one object with one token have one body. -/
def TokensName (vs : List (Version B T L)) : Prop :=
  ∀ u ∈ vs, ∀ v ∈ vs, u.token = v.token → u.body = v.body

/-- The histories of `h` go on in `h'`. -/
def History.Le (h h' : History K B T L) : Prop := ∀ k, h k <:+ h' k

theorem History.Le.refl (h : History K B T L) : h.Le h := fun _ => suffix_refl _

theorem History.Le.trans {h₁ h₂ h₃ : History K B T L} (h12 : h₁.Le h₂) (h23 : h₂.Le h₃) :
    h₁.Le h₃ := fun k => (h12 k).trans (h23 k)

/-- A version is never forgotten. -/
theorem History.Le.mem {h' : History K B T L} (hle : h.Le h') {k : K} {v : Version B T L}
    (hv : v ∈ h k) : v ∈ h' k := (hle k).subset hv

section
variable [DecidableEq K]

@[simp] theorem History.put_self (h : History K B T L) (k : K) (v : Version B T L) :
    h.put k v k = v :: h k := Function.update_self ..

theorem History.put_of_ne (h : History K B T L) {k j : K} (v : Version B T L) (hj : j ≠ k) :
    h.put k v j = h j := Function.update_of_ne hj ..

theorem History.le_put (h : History K B T L) (k : K) (v : Version B T L) : h.Le (h.put k v) := by
  intro j
  by_cases hj : j = k
  · subst hj
    rw [History.put_self]
    exact suffix_cons ..
  · rw [History.put_of_ne h v hj]

/-- The version an effect adds. -/
def Request.version (q : Request K B T L) (t : T) : Version B T L :=
  match q with
  | .create _ b l => ⟨b, t, l⟩
  | .update _ b _ l => ⟨b, t, l⟩

/-- The object a request writes. -/
def Request.key : Request K B T L → K
  | .create k _ _ => k
  | .update k _ _ _ => k

variable {h h' : History K B T L} {q : Request K B T L} {t : T}

/-- An effect adds the request's version to the request's object. -/
theorem Applies.eq (ha : Applies h q t h') : h' = h.put q.key (q.version t) := by
  cases ha <;> rfl

/-- Effects only extend histories. -/
theorem Applies.le (ha : Applies h q t h') : h.Le h' := by
  rw [ha.eq]
  exact h.le_put _ _

/-- Effects keep tokens naming bodies. -/
theorem Applies.tokensName (ha : Applies h q t h') (hn : ∀ k, TokensName (h k)) (j : K) :
    TokensName (h' j) := by
  -- the new version's body agrees with every version that has its token
  have hnew : ∀ u ∈ h q.key, u.token = t → u.body = (q.version t).body := by
    cases ha with
    | create absent =>
      intro u hu
      rw [Request.key, absent] at hu
      cases hu
    | update found same names => exact names
  have htok : (q.version t).token = t := by cases q <;> rfl
  rw [ha.eq]
  by_cases hj : j = q.key
  · subst hj
    rw [History.put_self]
    intro u hu v hv huv
    rcases mem_cons.1 hu with rfl | hu <;> rcases mem_cons.1 hv with rfl | hv
    · rfl
    · exact (hnew v hv (huv ▸ htok)).symm
    · exact hnew u hu (huv.trans htok)
    · exact hn _ u hu v hv huv
  · rw [History.put_of_ne h _ hj]
    exact hn j

/-- A rule of a store: what justifies a request, which later versions do not undo, and what the
histories satisfy, which every effect of a justified request keeps. -/
structure Protocol (K B T L : Type) [DecidableEq K] where
  just : History K B T L → Request K B T L → Prop
  core : History K B T L → Prop
  just_le : ∀ {h h' q}, just h q → h.Le h' → just h' q
  core_apply : ∀ {h h' q t}, core h → (∀ k, TokensName (h k)) → just h q → Applies h q t h' →
    core h'

namespace Protocol

/-- The invariant of a store whose clients keep to the protocol. -/
structure Inv (P : Protocol K B T L) (s : Store K B T L) : Prop where
  core : P.core s.objects
  tokens : ∀ k, TokensName (s.objects k)
  just : ∀ q ∈ s.sent, P.just s.objects q

variable {P : Protocol K B T L}

/-- The effect of a justified request keeps the invariant. -/
theorem Inv.apply {s s' : Store K B T L} (h : P.Inv s)
    (hq : P.just s.objects q) (ha : Applies s.objects q t s'.objects)
    (hsent : ∀ q' ∈ s'.sent, P.just s.objects q') : P.Inv s' :=
  ⟨P.core_apply h.core h.tokens hq ha, ha.tokensName h.tokens,
    fun q' hq' => P.just_le (hsent q' hq') ha.le⟩

variable (P) in
/-- The regime of a protocol: histories only go on. -/
def regime :
    Regime (sem : (o : Op K B T L Q) → Store K B T L → Ret F E o → Store K B T L → Prop) where
  inv := P.Inv
  moves s s' := s.objects.Le s'.objects
  refl _ := .refl _
  trans := .trans

/-- A fallible program keeps to the protocol from `s` on and ends with `R`. -/
abbrev Safe (P : Protocol K B T L) (x : Code K B T L Q F E α)
    (R : Except E α → Store K B T L → Prop) (s : Store K B T L) : Prop :=
  P.regime.Safe x.run R s

/-- A request that takes effect late stays within the protocol. -/
theorem Inv.drift {s s' : Store K B T L} (hi : P.Inv s) (hd : Cas.drift s s') :
    P.Inv s' ∧ s.objects.Le s'.objects := by
  obtain ⟨hsent, q, hq, t, ha⟩ := hd
  exact ⟨hi.apply (hi.just q hq) ha fun q' hq' => hi.just q' (hsent ▸ hq'), ha.le⟩

section
variable {into : F → E} {s : Store K B T L}

/-- The rule of a read: it returns what the object holds then. -/
theorem safe_get {k : K} {R : Except E (Option (B × T)) → Store K B T L → Prop}
    (h : ∀ s', s.objects.Le s'.objects → P.Inv s' →
      R (.ok (current (s'.objects k))) s' ∧ ∀ f, R (.error (into f)) s') :
    P.Safe (Q := Q) (get into k) R s := by
  rintro s₁ hle hi r s₂ ⟨rfl, hr⟩
  refine ⟨hi, .refl _, ?_⟩
  obtain ⟨hok, herr⟩ := h s₂ hle hi
  cases r with
  | ok x => exact hr x rfl ▸ hok
  | error f => exact herr f

/-- The rule of a question: nothing changes. -/
theorem safe_ask {q : Q} {R : Except E Unit → Store K B T L → Prop}
    (h : ∀ s' r, s.objects.Le s'.objects → P.Inv s' → R r s') :
    P.Safe (F := F) (ask q) R s := by
  rintro s₁ hle hi r s₂ rfl
  exact ⟨hi, .refl _, h s₂ r hle hi⟩

/-- The rule of a write: the request is justified when it is sent, and a reply that names a token
means that the request's version was the current one. -/
theorem safe_write {R : Except E T → Store K B T L → Prop}
    (h : ∀ s₁, s.objects.Le s₁.objects → P.Inv s₁ → P.just s₁.objects q ∧
      ∀ s₂, s₁.objects.Le s₂.objects → P.Inv s₂ →
        (∀ f, R (.error (into f)) s₂) ∧ ∀ t, q.version t ∈ s₂.objects q.key → R (.ok t) s₂) :
    P.Safe (Q := Q) (write into q) R s := by
  rintro s₁ hle hi r s₂ ⟨hsent, hr⟩
  obtain ⟨hjust, hpost⟩ := h s₁ hle hi
  have hsent₂ : ∀ q' ∈ s₂.sent, P.just s₁.objects q' := by
    intro q' hq'
    rw [hsent] at hq'
    rcases Set.mem_insert_iff.1 hq' with rfl | hq'
    · exact hjust
    · exact hi.just q' hq'
  cases r with
  | ok t =>
    have ha : Applies s₁.objects q t s₂.objects := hr
    have hi₂ := hi.apply hjust ha hsent₂
    refine ⟨hi₂, ha.le, (hpost s₂ ha.le hi₂).2 t ?_⟩
    rw [ha.eq, History.put_self]
    exact mem_cons_self ..
  | error f =>
    have ho : s₂.objects = s₁.objects := hr
    have hi₂ : P.Inv s₂ := ⟨ho ▸ hi.core, ho ▸ hi.tokens, fun q' hq' => ho ▸ hsent₂ q' hq'⟩
    have hle₂ : s₁.objects.Le s₂.objects := ho ▸ .refl _
    exact ⟨hi₂, hle₂, (hpost s₂ hle₂ hi₂).1 f⟩

end

end Protocol

end

end Cas
