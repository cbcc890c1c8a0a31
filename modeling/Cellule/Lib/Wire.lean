import Cellule.Lib.Except

/-!
# Fields of a fixed width

A binary header is read with a cursor, one field of a fixed width after another. A reader matches a
writer when it succeeds exactly where the bytes are what the writer writes (`Reads`); the reads of a
header can then be taken apart (`Reads.bind_eq_ok`), and its fields one after another are the header
(`at_append`).
-/

namespace Wire

open List

variable {ε α β : Type}

/-- The bytes from the cursor on start with a field. -/
def At (bytes : List UInt8) (cursor : Nat) (field : List UInt8) : Prop :=
  field <+: bytes.drop cursor

/-- Two fields in a row. -/
theorem at_append (h : field.length = width) :
    At bytes cursor (field ++ rest) ↔ At bytes cursor field ∧ At bytes (cursor + width) rest := by
  unfold At
  constructor
  · rintro ⟨tail, htail⟩
    rw [append_assoc] at htail
    refine ⟨⟨rest ++ tail, htail⟩, tail, ?_⟩
    rw [← drop_drop, ← htail, drop_left' h]
  · rintro ⟨⟨tail, htail⟩, tail', htail'⟩
    rw [← drop_drop, ← htail, drop_left' h] at htail'
    exact ⟨tail', by rw [append_assoc, htail', htail]⟩

theorem at_nil (bytes : List UInt8) (cursor : Nat) : At bytes cursor [] := nil_prefix

/-- The bytes are the fields at their start, and the rest. -/
theorem eq_append_of_at (h : header.length = width)
    (hat : At bytes 0 header) : bytes = header ++ bytes.drop width := by
  obtain ⟨tail, htail⟩ := hat
  rw [drop_zero] at htail
  rw [← htail, drop_left' h]

theorem at_zero_append (header rest : List UInt8) : At (header ++ rest) 0 header :=
  prefix_append header rest

/-- A reader at a cursor succeeds exactly if what the writer writes of its result is there. -/
structure Reads (take : List UInt8 → Nat → Except ε (α × Nat)) (put : α → List UInt8) (width : Nat)
    (typed : α → Prop) : Prop where
  length_put : ∀ a, (put a).length = width
  take_eq_ok : ∀ {bytes : List UInt8} {cursor : Nat} {r : α × Nat},
    take bytes cursor = .ok r ↔ r.2 = cursor + width ∧ cursor + width ≤ bytes.length ∧
      At bytes cursor (put r.1) ∧ typed r.1

variable {take : List UInt8 → Nat → Except ε (α × Nat)} {put : α → List UInt8} {width : Nat}
  {typed : α → Prop}

/-- A field that is read, followed by more code. -/
theorem Reads.bind_eq_ok (h : Reads take put width typed) :
    take bytes cursor >>= f = .ok b ↔ ∃ a, cursor + width ≤ bytes.length ∧ At bytes cursor (put a) ∧
      typed a ∧ f (a, cursor + width) = .ok b := by
  rw [Except.bind_eq_ok]
  constructor
  · rintro ⟨⟨a, cursor'⟩, htake, hf⟩
    obtain ⟨rfl, hlength, hat, htyped⟩ := h.take_eq_ok.1 htake
    exact ⟨a, hlength, hat, htyped, hf⟩
  · rintro ⟨a, hlength, hat, htyped, hf⟩
    exact ⟨(a, cursor + width), h.take_eq_ok.2 ⟨rfl, hlength, hat, htyped⟩, hf⟩

/-- A reader whose results are read off another one's. -/
theorem Reads.map (h : Reads take put width typed) (f : α → β) (g : β → α)
    (htake : ∀ bytes cursor, take' bytes cursor = (take bytes cursor).map fun r => (f r.1, r.2))
    (hput : ∀ b, put' b = put (g b)) (hgf : ∀ a, typed a → g (f a) = a ∧ typed' (f a))
    (hfg : ∀ b, typed' b → f (g b) = b ∧ typed (g b)) : Reads take' put' width typed' := by
  refine ⟨fun b => by rw [hput, h.length_put], fun {bytes cursor r} => ?_⟩
  rw [htake, Except.map_eq_ok]
  constructor
  · rintro ⟨a, ha, rfl⟩
    obtain ⟨hcursor, hlength, hat, htyped⟩ := h.take_eq_ok.1 ha
    obtain ⟨hg, htyped'⟩ := hgf a.1 htyped
    exact ⟨hcursor, hlength, by rwa [hput, hg], htyped'⟩
  · rintro ⟨hcursor, hlength, hat, htyped'⟩
    obtain ⟨hf, htyped⟩ := hfg r.1 htyped'
    rw [hput] at hat
    exact ⟨(g r.1, r.2), h.take_eq_ok.2 ⟨hcursor, hlength, hat, htyped⟩, by rw [hf]⟩

end Wire
