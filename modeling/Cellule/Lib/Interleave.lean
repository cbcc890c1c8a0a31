import Cellule.Lib.Prog

/-!
# Programs that interleave over a shared state

Any number of clients run programs over one shared state, one operation at a time and in any order;
the state may also move by itself. `Regime.Safe` is a rely-guarantee condition on one program: at
every operation it allows for the moves of everyone else, and asks that the operation keep the
invariant and be such a move itself. `Keeps.reachable`: if every call is safe, the invariant holds
in every world the clients can reach.
-/

namespace Interleave

open Function

variable {Op : Type} {Ret : Op → Type} {S Call Reply α β ε ι : Type}

/-- A shared state with the operations on it, its own moves, and the calls that clients may make,
which can depend on the replies handed out so far. -/
structure Service (Op : Type) (Ret : Op → Type) (S Call Reply : Type) where
  sem : (o : Op) → S → Ret o → S → Prop
  drift : S → S → Prop
  code : Call → Prog Op Ret Reply
  may : Set Reply → Call → Prop

/-- The shared state, what each client is running, and every reply a client got. -/
structure World (ι Op : Type) (Ret : Op → Type) (S Reply : Type) where
  shared : S
  clients : ι → Option (Prog Op Ret Reply)
  replies : Set Reply

/-- The world before any call. -/
def World.start (s : S) : World ι Op Ret S Reply := ⟨s, fun _ => none, ∅⟩

section
variable [DecidableEq ι]

/-- One step of a world: a client begins a call, performs its next operation, gets its reply or
stops for good in the middle, or the shared state moves. -/
inductive Service.Step (Y : Service Op Ret S Call Reply) :
    World ι Op Ret S Reply → World ι Op Ret S Reply → Prop where
  | invoke {w} (i : ι) (c : Call) (idle : w.clients i = none) (may : Y.may w.replies c) :
      Y.Step w { w with clients := update w.clients i (some (Y.code c)) }
  | exec {w} (i : ι) {o k r s} (run : w.clients i = some (.call o k))
      (eff : Y.sem o w.shared r s) :
      Y.Step w { w with shared := s, clients := update w.clients i (some (k r)) }
  | reply {w} (i : ι) {a} (run : w.clients i = some (.done a)) :
      Y.Step w { w with clients := update w.clients i none, replies := insert a w.replies }
  | stop {w} (i : ι) : Y.Step w { w with clients := update w.clients i none }
  | drift {w s} (move : Y.drift w.shared s) : Y.Step w { w with shared := s }

/-- The worlds the clients can reach from a shared state. -/
def Service.Reachable (Y : Service Op Ret S Call Reply) (s : S) (w : World ι Op Ret S Reply) :
    Prop :=
  Relation.ReflTransGen Y.Step (World.start s) w

end

/-- What everyone keeps to: an invariant of the shared state and the moves it may make. -/
structure Regime (sem : (o : Op) → S → Ret o → S → Prop) where
  inv : S → Prop
  moves : S → S → Prop
  refl : ∀ s, moves s s
  trans : ∀ {s₁ s₂ s₃}, moves s₁ s₂ → moves s₂ s₃ → moves s₁ s₃

namespace Regime

variable {sem : (o : Op) → S → Ret o → S → Prop} (G : Regime sem)

/-- From `s`, whatever moves the others make, each operation of the program keeps the invariant and
is an allowed move, and the end satisfies `Q`. -/
def Safe : Prog Op Ret α → (α → S → Prop) → S → Prop
  | .done a, Q, s => Q a s
  | .call o k, Q, s => ∀ s₁, G.moves s s₁ → G.inv s₁ → ∀ r s₂, sem o s₁ r s₂ →
      G.inv s₂ ∧ G.moves s₁ s₂ ∧ Safe (k r) Q s₂

variable {G}

variable {p : Prog Op Ret α} {s : S} {Q : Except ε β → S → Prop}

/-- A move of the others does not make a program unsafe, if it does not undo the postcondition. -/
theorem Safe.moves {Q : α → S → Prop} {s' : S} (h : G.Safe p Q s) (hQ : ∀ a, Q a s → Q a s')
    (hm : G.moves s s') : G.Safe p Q s' := by
  cases p with
  | done a => exact hQ a h
  | call o k => exact fun s₁ hs₁ => h s₁ (G.trans hm hs₁)

/-- The rule of consequence. -/
theorem Safe.imp {Q Q' : α → S → Prop} (h : G.Safe p Q s) (hQ : ∀ a s', Q a s' → Q' a s') :
    G.Safe p Q' s := by
  induction p generalizing s with
  | done a => exact hQ a s h
  | call o k ih =>
    intro s₁ hs₁ hi r s₂ hr
    obtain ⟨hi₂, hm₂, hk⟩ := h s₁ hs₁ hi r s₂ hr
    exact ⟨hi₂, hm₂, ih r hk⟩

/-- The rule of sequencing. -/
theorem Safe.bind {f : α → Prog Op Ret β} {Q : β → S → Prop}
    (h : G.Safe p (fun a s' => G.Safe (f a) Q s') s) : G.Safe (p.bind f) Q s := by
  induction p generalizing s with
  | done a => exact h
  | call o k ih =>
    intro s₁ hs₁ hi r s₂ hr
    obtain ⟨hi₂, hm₂, hk⟩ := h s₁ hs₁ hi r s₂ hr
    exact ⟨hi₂, hm₂, ih r hk⟩

/-- The postcondition of a fallible program from those of its two outcomes. -/
def outcome (Q : α → S → Prop) (E : ε → S → Prop) : Except ε α → S → Prop
  | .ok a => Q a
  | .error e => E e

/-- The rule of sequencing for fallible programs: a failure of the first part is the outcome. -/
theorem Safe.bindE {x : ExceptT ε (Prog Op Ret) α} {f : α → ExceptT ε (Prog Op Ret) β}
    (h : G.Safe x.run (outcome (fun a s' => G.Safe (f a).run Q s') fun e s' => Q (.error e) s') s) :
    G.Safe (x >>= f).run Q s := by
  refine Safe.bind (Safe.imp h fun r s' hr => ?_)
  cases r with
  | ok a => exact hr
  | error e => exact hr

/-- The rule of a check made before the rest: it touches nothing. -/
theorem Safe.checkE {x : Except ε α} {f : α → ExceptT ε (Prog Op Ret) β}
    (hok : ∀ a, x = .ok a → G.Safe (f a).run Q s) (herr : ∀ e, x = .error e → Q (.error e) s) :
    G.Safe ((liftM x : ExceptT ε (Prog Op Ret) α) >>= f).run Q s := by
  refine Safe.bindE ?_
  cases x with
  | ok a => exact hok a rfl
  | error e => exact herr e rfl

/-- The rule of a part run for its outcome. -/
theorem Safe.attemptE {x : ExceptT ε (Prog Op Ret) α} {f : Except ε α → ExceptT ε (Prog Op Ret) β}
    (h : G.Safe x.run (fun r s' => G.Safe (f r).run Q s') s) :
    G.Safe (Prog.attempt x >>= f).run Q s :=
  Safe.bindE (Safe.bind (Safe.imp h fun _ _ hr => hr))

/-- The rule of a part run only under a condition. -/
theorem Safe.onlyIf {c : Bool} {x : ExceptT ε (Prog Op Ret) Unit} {Q : Except ε Unit → S → Prop}
    (ht : c = true → G.Safe x.run Q s) (hf : c = false → Q (.ok ()) s) :
    G.Safe (Prog.onlyIf c x).run Q s := by
  cases c with
  | true => exact ht rfl
  | false => exact hf rfl

end Regime

/-- What holds of a world in a regime, where every reply says `good` of the shared state. -/
structure World.Holds {sem : (o : Op) → S → Ret o → S → Prop} (G : Regime sem)
    (good : Reply → S → Prop) (w : World ι Op Ret S Reply) : Prop where
  inv : G.inv w.shared
  replies : ∀ a ∈ w.replies, good a w.shared
  clients : ∀ i p, w.clients i = some p → G.Safe p good w.shared

/-- A service keeps to a regime: no move undoes what a reply says, the shared state moves within the
regime by itself, and every call a client may make is safe. -/
structure Keeps (Y : Service Op Ret S Call Reply) (G : Regime Y.sem) (good : Reply → S → Prop) :
    Prop where
  good_moves : ∀ {a s s'}, good a s → G.moves s s' → good a s'
  drift : ∀ {s s'}, G.inv s → Y.drift s s' → G.inv s' ∧ G.moves s s'
  code : ∀ {s known c}, G.inv s → (∀ a ∈ known, good a s) → Y.may known c →
    G.Safe (Y.code c) good s

section
variable {Y : Service Op Ret S Call Reply} {G : Regime Y.sem} {good : Reply → S → Prop}

variable {w : World ι Op Ret S Reply}

/-- A move of the shared state that keeps the invariant keeps what holds of the world. -/
theorem Keeps.moves (hY : Keeps Y G good) (h : w.Holds G good) {s : S} (hi : G.inv s)
    (hm : G.moves w.shared s) : World.Holds G good { w with shared := s } :=
  ⟨hi, fun a ha => hY.good_moves (h.replies a ha) hm,
    fun i p hp => (h.clients i p hp).moves (fun _ hg => hY.good_moves hg hm) hm⟩

variable [DecidableEq ι]

/-- Changing what one client runs keeps what holds of the world, if the new program is safe. -/
theorem World.Holds.client (h : w.Holds G good) (i : ι) {c : Option (Prog Op Ret Reply)}
    (hc : ∀ p, c = some p → G.Safe p good w.shared) :
    World.Holds G good { w with clients := update w.clients i c } := by
  refine ⟨h.inv, h.replies, fun j p (hp : update w.clients i c j = some p) => ?_⟩
  by_cases hj : j = i
  · subst hj
    rw [update_self] at hp
    exact hc p hp
  · rw [update_of_ne hj] at hp
    exact h.clients j p hp

/-- One step keeps what holds of the world. -/
theorem Keeps.step (hY : Keeps Y G good) {w' : World ι Op Ret S Reply} (h : w.Holds G good)
    (hs : Y.Step w w') : w'.Holds G good := by
  cases hs with
  | invoke i c idle may =>
    refine h.client i fun p hp => ?_
    cases hp
    exact hY.code h.inv h.replies may
  | @exec i o k r s run eff =>
    obtain ⟨hi, hm, hk⟩ := h.clients i _ run w.shared (G.refl _) h.inv r s eff
    exact (hY.moves h hi hm).client i fun p hp => by cases hp; exact hk
  | @reply i a run =>
    have hgood : good a w.shared := h.clients i _ run
    have hw := h.client i (c := none) nofun
    refine ⟨hw.inv, fun b hb => ?_, hw.clients⟩
    rcases Set.mem_insert_iff.1 hb with rfl | hb
    · exact hgood
    · exact h.replies b hb
  | stop i => exact h.client i nofun
  | drift move =>
    obtain ⟨hi, hm⟩ := hY.drift h.inv move
    exact hY.moves h hi hm

/-- **Invariants of interleavings.** In every world reached from a state with the invariant, the
invariant holds and every reply says the truth. -/
theorem Keeps.reachable (hY : Keeps Y G good) {s : S} (hs : G.inv s) (hw : Y.Reachable s w) :
    w.Holds G good := by
  induction hw with
  | refl => exact ⟨hs, fun a ha => ha.elim, nofun⟩
  | tail _ hstep ih => exact hY.step ih hstep

end

end Interleave
