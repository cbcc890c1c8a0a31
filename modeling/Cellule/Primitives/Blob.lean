import Cellule.Target

/-!
# Beginning an upload

A blob upload (`primitives/blob/sql.rs`) keeps the digest of the request that began it, so that the
same request may come again. The digest is of the fields one after another, without their lengths.
`begin_again_iff` says which requests are told apart.
-/

namespace Cellule

open Except List

/-- `BlobCondition` (`primitives/blob/mod.rs:50`). -/
inductive BlobCondition where
  | any
  | missing
  | etag (tag : Digest)
  deriving DecidableEq

/-- `encode_condition` (`sql.rs:491`). -/
def BlobCondition.encode : BlobCondition → Nat × Option Digest
  | .any => (0, none)
  | .missing => (1, none)
  | .etag tag => (2, some tag)

/-- `BlobMutation::Begin` (`primitives/blob/mod.rs:64`) without its upload. A content type is its
UTF-8 bytes. -/
@[ext]
structure BlobBegin where
  key : Bytes
  condition : BlobCondition
  contentType : Option Bytes
  metadata : Bytes
  expiresAt : Int64
  deriving DecidableEq

/-- What `begin_digest` (`sql.rs:512`) hashes. -/
def BlobBegin.bytes (r : BlobBegin) : Bytes :=
  octets "crab.blob-upload.v1\x00" ++ (r.key ++ (Bytes.be 8 r.condition.encode.1
    ++ ((r.condition.encode.2.map (·.asBytes)).getD [] ++ (r.contentType.getD [] ++ (r.metadata
      ++ Bytes.be 8 r.expiresAt.toUInt64.toNat)))))

/-- SQLite's `length` of a text: its characters before the first NUL. -/
def textLength (value : Bytes) : Nat :=
  (value.takeWhile (· != 0)).countP (· &&& 0xC0 != 0x80)

/-- The `CHECK` constraint on content types (`migrations/blob.sql:7`). -/
def BlobBegin.typed (r : BlobBegin) : Bool :=
  r.contentType.all fun value => decide (1 ≤ textLength value ∧ textLength value ≤ 256)

/-- The columns of `blob_uploads` that a Begin writes and nothing changes. -/
structure BlobUpload (hash : Hash) where
  request : BlobBegin
  requestDigest : Digest
  createdAt : Int
  digested : requestDigest = hash request.bytes
  typed : request.typed = true

abbrev BlobUploads (hash : Hash) := OrderedMap (FixedId 16) (BlobUpload hash)

inductive BlobBeginOutcome where
  | begun
  | conflict
  deriving DecidableEq

/-- The checks of `blob_mutate` and `begin_upload` on a Begin. -/
def validateBlobBegin (now issuedAt : Int) (r : BlobBegin) : Result Unit := do
  reject (decide (now < 0)) (.command "negative blob logical time")
  reject (decide (issuedAt < 0)) (.command "negative blob logical time")
  reject (r.key.isEmpty || decide (r.key.length > 1024))
    (.command "blob key must be 1..=1024 bytes")
  reject (decide (r.metadata.length > 8 * 1024)
      || r.contentType.any fun value => value.isEmpty || decide (value.length > 256))
    (.command "blob metadata exceeds limits")
  let lifetime ← okOr (checkedAddInt r.expiresAt.toInt (-issuedAt))
    (.command "blob upload expiry overflow")
  reject (decide (lifetime < 60000) || decide (lifetime > 7 * 24 * 60 * 60 * 1000))
    (.command "blob upload lifetime must be between one minute and seven days")
  reject (decide (r.expiresAt.toInt ≤ now)) (.command "blob upload has already expired")

/-- `begin_upload` (`sql.rs:5`), as `blob_mutate` calls it. -/
def blobBegin (hash : Hash) (now issuedAt : Int) (upload : FixedId 16)
    (r : BlobBegin) (uploads : BlobUploads hash) :
    Result (BlobBeginOutcome × BlobUploads hash) := do
  validateBlobBegin now issuedAt r
  match uploads.get? upload with
  | some existing =>
    pure (if existing.requestDigest = hash r.bytes then .begun else .conflict, uploads)
  | none =>
    -- a content type that starts with NUL passes the checks and fails the constraint
    if h : r.typed then
      pure (.begun, uploads.insert upload ⟨r, hash r.bytes, now, rfl, h⟩)
    else .error .sqlite

/-- The bytes of a condition tell it from another and from what follows. -/
theorem BlobCondition.bytes_inj {c d : BlobCondition}
    (h : Bytes.be 8 c.encode.1 ++ ((c.encode.2.map (·.asBytes)).getD [] ++ rest)
      = Bytes.be 8 d.encode.1 ++ ((d.encode.2.map (·.asBytes)).getD [] ++ rest')) :
    c = d ∧ rest = rest' := by
  obtain ⟨hcode, h⟩ := append_inj h (by simp)
  have hcode := congrArg Bytes.ofBe hcode
  cases c <;> cases d <;>
    simp [encode, Bytes.ofBe_be] at hcode h ⊢
  · exact h
  · exact h
  · obtain ⟨htag, hrest⟩ := append_inj h (by simp)
    exact ⟨Subtype.ext htag, hrest⟩

/-- A content type that is stored is not empty. -/
theorem BlobBegin.typed_ne {r : BlobBegin} (h : r.typed = true) : r.contentType ≠ some [] := by
  intro hempty
  simp [typed, hempty, textLength] at h

/-- Requests with the same bytes are the same exactly when their keys, and their content types, have
the same lengths. -/
theorem BlobBegin.eq_iff_of_bytes {r s : BlobBegin} (hr : r.contentType ≠ some [])
    (hs : s.contentType ≠ some []) (h : r.bytes = s.bytes) :
    r = s ↔ r.key.length = s.key.length ∧
      (r.contentType.getD []).length = (s.contentType.getD []).length := by
  refine ⟨by rintro rfl; exact ⟨rfl, rfl⟩, fun ⟨hkey, htype⟩ => ?_⟩
  obtain ⟨hkey, h⟩ := append_inj (append_cancel_left h) hkey
  obtain ⟨hcondition, h⟩ := BlobCondition.bytes_inj h
  obtain ⟨htype, h⟩ := append_inj h htype
  obtain ⟨hmetadata, h⟩ := append_inj' h (by simp)
  have hexpiry := congrArg Bytes.ofBe h
  rw [Bytes.ofBe_be (UInt64.toNat_lt _), Bytes.ofBe_be (UInt64.toNat_lt _)] at hexpiry
  have hexpiry := Int64.toBitVec_inj.1 (congrArg UInt64.toBitVec (UInt64.toNat_inj.1 hexpiry))
  have htype : r.contentType = s.contentType := by
    cases hr' : r.contentType <;> cases hs' : s.contentType <;> simp_all
  exact BlobBegin.ext hkey hcondition htype hmetadata hexpiry

/-- A Begin for an upload that is there is answered by the bytes of the two requests. The answer
tells whether they are the same exactly unless different requests have the same bytes. -/
theorem begin_again_iff (hash : Hash) (uploads : BlobUploads hash)
    (upload : FixedId 16) (stored : BlobUpload hash) (hstored : uploads.get? upload = some stored)
    (now issuedAt : Int) (r : BlobBegin) (hvalid : validateBlobBegin now issuedAt r = .ok ())
    (hfree : hash r.bytes = hash stored.request.bytes → r.bytes = stored.request.bytes) :
    ∃ outcome, blobBegin hash now issuedAt upload r uploads = .ok (outcome, uploads) ∧
      ((outcome = .begun ↔ r = stored.request) ↔
        (r.bytes = stored.request.bytes → r.key.length = stored.request.key.length ∧
          (r.contentType.getD []).length = (stored.request.contentType.getD []).length)) := by
  have hdigest : stored.requestDigest = hash r.bytes ↔ r.bytes = stored.request.bytes := by
    rw [stored.digested]
    exact ⟨fun h => hfree h.symm, fun h => h ▸ rfl⟩
  have htyped : r.contentType ≠ some [] := by
    rintro h
    simp [validateBlobBegin, h] at hvalid
  refine ⟨_, by simp [blobBegin, hvalid, hstored]; rfl, ?_⟩
  by_cases hbytes : r.bytes = stored.request.bytes
  · rw [if_pos (hdigest.2 hbytes), BlobBegin.eq_iff_of_bytes htyped
      (BlobBegin.typed_ne stored.typed) hbytes]
    simp [hbytes]
  · have hne : r ≠ stored.request := fun h => hbytes (h ▸ rfl)
    simp [hdigest, hbytes, hne]

/-- Metadata that could be a content type. -/
def plainBegin : BlobBegin := ⟨[107], .any, none, [97], 60000⟩

/-- The same bytes as a content type. -/
def typedBegin : BlobBegin := ⟨[107], .any, some [97], [], 60000⟩

/-- The upload that a Begin stores. -/
def begunUpload (hash : Hash) : BlobUpload hash :=
  ⟨plainBegin, hash plainBegin.bytes, 0, rfl, by decide⟩

/-- A digest that tells requests of different lengths apart. -/
def lengthDigest (bytes : Bytes) : Digest := .fill 32 (UInt8.ofNat bytes.length)

/-- The table with that upload. -/
def begunUploads : BlobUploads lengthDigest :=
  OrderedMap.empty.insert (.fill 16 1) (begunUpload lengthDigest)

/-- The same request comes again and is begun. One with longer metadata conflicts. -/
theorem begin_again_told :
    blobBegin lengthDigest 0 0 (.fill 16 1) plainBegin begunUploads = .ok (.begun, begunUploads) ∧
    blobBegin lengthDigest 0 0 (.fill 16 1) {plainBegin with metadata := [97, 98]} begunUploads
      = .ok (.conflict, begunUploads) := by
  constructor
  · obtain ⟨outcome, hbegin, hiff⟩ := begin_again_iff lengthDigest begunUploads (.fill 16 1)
      (begunUpload _) (by simp [begunUploads]) 0 0 plainBegin rfl fun _ => rfl
    rw [hbegin, (hiff.2 fun _ => ⟨rfl, rfl⟩).2 rfl]
  · obtain ⟨outcome, hbegin, hiff⟩ := begin_again_iff lengthDigest begunUploads (.fill 16 1)
      (begunUpload _) (by simp [begunUploads]) 0 0 {plainBegin with metadata := [97, 98]} rfl
      fun h => absurd h (by decide)
    have hne := (hiff.2 fun h => absurd h (by decide)).not.2 (by decide)
    rw [hbegin]
    cases outcome with
    | begun => exact absurd rfl hne
    | conflict => rfl

/-- A Begin with another content type and other metadata is taken for the one that is stored. -/
theorem begin_again_conflates : plainBegin ≠ typedBegin ∧ ∀ hash : Hash,
    blobBegin hash 0 0 (.fill 16 1) plainBegin .empty
      = .ok (.begun, OrderedMap.empty.insert (.fill 16 1) (begunUpload hash)) ∧
    blobBegin hash 0 0 (.fill 16 1) typedBegin
        (OrderedMap.empty.insert (.fill 16 1) (begunUpload hash))
      = .ok (.begun, OrderedMap.empty.insert (.fill 16 1) (begunUpload hash)) := by
  refine ⟨by decide, fun hash => ⟨rfl, ?_⟩⟩
  have hsame : typedBegin.bytes = plainBegin.bytes := by decide
  simp [blobBegin, show validateBlobBegin 0 0 typedBegin = .ok () from rfl, begunUpload, hsame]

end Cellule
