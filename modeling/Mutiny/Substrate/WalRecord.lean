import Mutiny.Lib.Framed
import Mutiny.Substrate.Manifest

/- The write-ahead log's records and their frames (`substrate-wal`: `record.rs`).

   A frame is the payload's length, its CRC-32C and the payload, which is the record's
   `bincode` form. Both come from outside (`WalCodec`): a payload reads back and is not
   empty, and none comes near the longest a frame may have, so that `RecordTooLarge`
   cannot happen and every record fits its frame (`walFraming_fits`).

   Correspondence (Rust ↔ Lean):
     `RecordKind`, `Record`               ↔ `RecordKind`, `WalRecord`
     `Record::encode`, `Record::decode`   ↔ `walFraming` (`frame`, `read`)
     `ReadOutcome::Torn`                  ↔ `none` -/
namespace Mutiny.Substrate
open Mutiny.Lib

inductive RecordKind where
  | write (pageNo : LogicalPageNo) (page : Option PageId)
  | commit (manifest : ManifestId) (createdAtMs : U64)
  | checkpoint (manifest : ManifestId)
  deriving DecidableEq

structure WalRecord where
  lsn : U64
  kind : RecordKind
  deriving DecidableEq

/-! Frames. -/

def maxRecordBytes : Nat := 16 * 1024 * 1024

/-- `bincode` and `crc32c`, as far as the log relies on them. -/
class WalCodec where
  encode : WalRecord → Bytes
  decode : Bytes → Option WalRecord
  decode_encode : ∀ r, decode (encode r) = some r
  length_encode : ∀ r, 0 < (encode r).length ∧ (encode r).length ≤ maxRecordBytes
  crc32c : Bytes → UInt32

/-- The log's frames. Reading one never fails: what cannot be read is the end, and a
    payload that does not decode reads as torn. -/
def walFraming [C : WalCodec] (ε : Type) : Framing WalRecord ε :=
  Framing.checked .le (fun bs => (C.crc32c bs).toNat) (fun len => 0 < len && len ≤ maxRecordBytes)
    (fun bs => (C.crc32c bs).toNat_lt) C.encode (fun payload => .ok (C.decode payload))

theorem walFraming_fits [C : WalCodec] {ε : Type} (r : WalRecord) : (walFraming ε).Fits r := by
  obtain ⟨hpos, hle⟩ := C.length_encode r
  refine ⟨hle.trans_lt (by decide), by simp [hpos, hle], ?_⟩
  show Except.ok (C.decode (C.encode r)) = _
  rw [C.decode_encode]

end Mutiny.Substrate
