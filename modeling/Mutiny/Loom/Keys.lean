import Mutiny.Bridge.Capture

/- The trust-root register and the rotation of its keys (`loom-keys`:
   `register.rs`, `rotation.rs`, `directory.rs`).

   A register lists trust roots: a key id, the role it speaks for, its public key
   and where it stands in the rotation. Every step gives a new register, which is
   validated as a whole; a step that fails gives none, and a run goes on with the
   register it had (`rotate`). A verifier accepts a signature of any root of its
   role that is active or retired.

   Curve arithmetic is a parameter (`Curve`): which 32 bytes are a public key, and
   which signatures a public key accepts. The rule a register breaks is named by
   `RegisterFault`, the wording of the message is left out; so are reading and
   writing the register's file. -/
namespace Mutiny.Loom
open Mutiny.Lib
open Mutiny.Bridge (isBlank isWhiteSpace)

/-! Names. -/

inductive KeyRole where
  | actorGovernance
  | release
  | backupRoot
  deriving DecidableEq

inductive Algorithm where
  | ed25519
  deriving DecidableEq

def Algorithm.asStr : Algorithm → String
  | .ed25519 => "ed25519"

inductive Backend where
  | software
  | awsKms
  deriving DecidableEq

inductive KeyStatus where
  | pending
  | active
  | retired
  | revoked
  deriving DecidableEq

def KeyStatus.verifies : KeyStatus → Bool
  | .active | .retired => true
  | .pending | .revoked => false

/-! Public keys. -/

def hexValue? (c : Char) : Option Nat :=
  if '0' ≤ c ∧ c ≤ '9' then some (c.toNat - '0'.toNat)
  else if 'a' ≤ c ∧ c ≤ 'f' then some (c.toNat - 'a'.toNat + 10)
  else if 'A' ≤ c ∧ c ≤ 'F' then some (c.toNat - 'A'.toNat + 10)
  else none

def decodeHexChars : List Char → Option Bytes
  | [] => some []
  | [_] => none
  | a :: b :: rest => do
    let high ← hexValue? a
    let low ← hexValue? b
    let bytes ← decodeHexChars rest
    return UInt8.ofNat (high * 16 + low) :: bytes

def trimChars (cs : List Char) : List Char := ((cs.dropWhile isWhiteSpace).reverse.dropWhile isWhiteSpace).reverse

/-- `2 * n` hexadecimal characters, blanks around them trimmed. -/
def decodeHex (n : Nat) (text : String) : Option Bytes :=
  let cs := trimChars text.toList
  if cs.length = 2 * n then decodeHexChars cs else none

structure Curve where
  /-- `VerifyingKey::from_bytes` succeeds. -/
  isKey : Bytes → Bool
  /-- A key accepts a signature of a message. -/
  accepts : Bytes → Bytes → Bytes → Bool

/-! Roots. -/

structure Approval where
  approver : String
  atUnix : Nat
  deriving DecidableEq

structure Ceremony where
  reference : String
  approvals : List Approval
  deriving DecidableEq

def Ceremony.approvers (c : Ceremony) : List String := (c.approvals.map Approval.approver).dedup

structure TrustRoot where
  keyId : String
  role : KeyRole
  algorithm : Algorithm
  publicKey : String
  backend : Backend
  status : KeyStatus
  generation : Nat
  ceremony : Ceremony
  revocationReason : Option String
  deriving DecidableEq

def dualControl : Nat := 2

def TrustRoot.dualControlSatisfied (root : TrustRoot) : Bool := dualControl ≤ root.ceremony.approvers.length

inductive RegisterFault where
  | schemaVersion (version : Nat)
  | noRoots
  | keyId (keyId : String)
  | keyIdTwice (keyId : String) (role : KeyRole)
  | publicKeyText (keyId : String)
  | publicKeyCurve (keyId : String)
  | noCeremonyReference (keyId : String)
  | revokedWithoutReason (keyId : String)
  | reasonWithoutRevocation (keyId : String) (status : KeyStatus)
  | twoActive (role : KeyRole) (keyIds : List String)
  | alreadyRegistered (keyId : String) (role : KeyRole)
  | generationNotAbove (generation : Nat) (role : KeyRole) (highest : Nat)
  | noReason (keyId : String)
  deriving DecidableEq

inductive KeyError where
  | registerInvalid (fault : RegisterFault)
  | unknownKeyId (keyId : String) (role : KeyRole)
  | roleMismatch (keyId : String) (expected found : KeyRole)
  | keyRevoked (keyId : String) (generation : Nat) (reason : String)
  | keyNotTrusted (keyId : String) (status : KeyStatus)
  | algorithmMismatch (keyId : String) (expected : Algorithm) (found : String)
  | signatureInvalid (keyId : String)
  | noTrustedKey (role : KeyRole) (tried : Nat)
  | dualControlRequired (keyId : String) (status : KeyStatus) (approvals required : Nat)
  | invalidTransition (keyId : String) (start stop : KeyStatus)
  deriving DecidableEq

def require (ok : Bool) (e : KeyError) : Except KeyError Unit := if ok then .ok () else .error e

section Register

variable (C : Curve)

def TrustRoot.verifyingKey (root : TrustRoot) : Except KeyError Bytes :=
  match decodeHex 32 root.publicKey with
  | none => .error (.registerInvalid (.publicKeyText root.keyId))
  | some bytes => if C.isKey bytes then .ok bytes else .error (.registerInvalid (.publicKeyCurve root.keyId))

structure TrustRootRegister where
  schemaVersion : Nat
  roots : List TrustRoot
  deriving DecidableEq

def registerSchemaVersion : Nat := 1

/-- A reason is there when, and only when, the root is revoked. -/
def checkReason (root : TrustRoot) : Except KeyError Unit :=
  match root.status, root.revocationReason with
  | .revoked, none => .error (.registerInvalid (.revokedWithoutReason root.keyId))
  | .revoked, some _ => .ok ()
  | status, some _ => .error (.registerInvalid (.reasonWithoutRevocation root.keyId status))
  | _, none => .ok ()

def validateRoot (seen : List (KeyRole × String)) (root : TrustRoot) : Except KeyError Unit := do
  require (!isBlank root.keyId && (utf8 root.keyId).length ≤ 128) (.registerInvalid (.keyId root.keyId))
  require ((root.role, root.keyId) ∉ seen) (.registerInvalid (.keyIdTwice root.keyId root.role))
  let _ ← root.verifyingKey C
  require (!isBlank root.ceremony.reference) (.registerInvalid (.noCeremonyReference root.keyId))
  require (!(root.status == .active || root.status == .revoked) || root.dualControlSatisfied)
    (.dualControlRequired root.keyId root.status root.ceremony.approvers.length dualControl)
  checkReason root

def validateRoots : List (KeyRole × String) → List TrustRoot → Except KeyError Unit
  | _, [] => .ok ()
  | seen, root :: roots => do
    validateRoot C seen root
    validateRoots ((root.role, root.keyId) :: seen) roots

namespace TrustRootRegister

variable (r : TrustRootRegister) (role : KeyRole)

def inRole : List TrustRoot := r.roots.filter (fun root => root.role = role)

def find (keyId : String) : Option TrustRoot :=
  (r.inRole role).find? (fun root => root.keyId = keyId)

def activeIn : List TrustRoot :=
  (r.inRole role).filter (fun root => root.status = .active)

def oneActive : Except KeyError Unit :=
  require ((r.activeIn role).length ≤ 1) (.registerInvalid (.twoActive role ((r.activeIn role).map TrustRoot.keyId)))

/-- Everything that must be true of a register before anything trusts it. -/
def validate : Except KeyError Unit := do
  require (r.schemaVersion = registerSchemaVersion) (.registerInvalid (.schemaVersion r.schemaVersion))
  require (!r.roots.isEmpty) (.registerInvalid .noRoots)
  validateRoots C [] r.roots
  r.oneActive .actorGovernance
  r.oneActive .release
  r.oneActive .backupRoot

def validated : Except KeyError TrustRootRegister := do
  r.validate C
  return r

end TrustRootRegister

/-! Rotation. -/

variable (r : TrustRootRegister) (role : KeyRole)

def findRoot (keyId : String) : Except KeyError TrustRoot :=
  match r.find role keyId with
  | none => .error (.unknownKeyId keyId role)
  | some root => .ok root

def expand (new : TrustRoot) : Except KeyError TrustRootRegister := do
  require (r.find new.role new.keyId).isNone (.registerInvalid (.alreadyRegistered new.keyId new.role))
  let highest := ((r.inRole new.role).map TrustRoot.generation).foldl max 0
  require (highest < new.generation) (.registerInvalid (.generationNotAbove new.generation new.role highest))
  { r with roots := r.roots ++ [{ new with status := .pending, revocationReason := none }] }.validated C

def activateRoot (keyId : String) (root : TrustRoot) : TrustRoot :=
  if root.role = role then
    if root.keyId = keyId then { root with status := .active }
    else if root.status = .active then { root with status := .retired }
    else root
  else root

/-- Make a staged root the one that signs, and retire the one before it. -/
def activate (keyId : String) : Except KeyError TrustRootRegister := do
  let candidate ← findRoot r role keyId
  require (candidate.status = .pending) (.invalidTransition keyId candidate.status .active)
  require candidate.dualControlSatisfied
    (.dualControlRequired keyId .active candidate.ceremony.approvers.length 2)
  require ((r.activeIn role).all (fun root => root.keyId = keyId || root.generation < candidate.generation))
    (.invalidTransition keyId .pending .active)
  { r with roots := r.roots.map (activateRoot role keyId) }.validated C

def retireRoot (keyId : String) (root : TrustRoot) : TrustRoot :=
  if root.role = role ∧ root.keyId = keyId then { root with status := .retired } else root

def retire (keyId : String) : Except KeyError TrustRootRegister := do
  let candidate ← findRoot r role keyId
  require (candidate.status = .active) (.invalidTransition keyId candidate.status .retired)
  { r with roots := r.roots.map (retireRoot role keyId) }.validated C

def revokeRoot (keyId reason : String) (root : TrustRoot) : TrustRoot :=
  if root.role = role ∧ root.keyId = keyId then { root with status := .revoked, revocationReason := some reason }
  else root

def revoke (keyId reason : String) (allowSeal : Bool) : Except KeyError TrustRootRegister := do
  require (!isBlank reason) (.registerInvalid (.noReason keyId))
  let candidate ← findRoot r role keyId
  require (candidate.status ≠ .revoked) (.invalidTransition keyId .revoked .revoked)
  require candidate.dualControlSatisfied
    (.dualControlRequired keyId .revoked candidate.ceremony.approvers.length 2)
  let survivors := (r.inRole role).countP (fun root => root.keyId ≠ keyId && root.status.verifies)
  require (survivors ≠ 0 || allowSeal) (.invalidTransition keyId candidate.status .revoked)
  { r with roots := r.roots.map (revokeRoot role keyId reason) }.validated C

inductive Rotation where
  | expand (new : TrustRoot)
  | activate (role : KeyRole) (keyId : String)
  | retire (role : KeyRole) (keyId : String)
  | revoke (role : KeyRole) (keyId reason : String) (allowSeal : Bool)

def Rotation.apply : Rotation → Except KeyError TrustRootRegister
  | .expand new => Loom.expand C r new
  | .activate role keyId => Loom.activate C r role keyId
  | .retire role keyId => Loom.retire C r role keyId
  | .revoke role keyId reason allowSeal => Loom.revoke C r role keyId reason allowSeal

/-- A failed call leaves the caller's register. -/
def rotate (call : Rotation) : TrustRootRegister :=
  match call.apply C r with
  | .ok next => next
  | .error _ => r

def rotations (calls : List Rotation) : TrustRootRegister := calls.foldl (rotate C) r

/-! Verification. -/

/-- The roots that may still verify, the newest generation first. -/
def trusted : List TrustRoot :=
  ((r.inRole role).filter (fun root => root.status.verifies)).insertionSort (fun a b => b.generation ≤ a.generation)

def resolve (keyId : String) : Except KeyError TrustRoot :=
  match r.find role keyId with
  | some root =>
    match root.status with
    | .revoked => .error (.keyRevoked root.keyId root.generation (root.revocationReason.getD "no reason recorded"))
    | .pending => .error (.keyNotTrusted root.keyId root.status)
    | .active | .retired => .ok root
  | none =>
    match r.roots.find? (fun root => root.keyId = keyId) with
    | some elsewhere => .error (.roleMismatch keyId role elsewhere.role)
    | none => .error (.unknownKeyId keyId role)

/-- An Ed25519 signature is 64 bytes. -/
def verifyAgainst (root : TrustRoot) (message signature : Bytes) : Except KeyError Unit := do
  require (signature.length = 64) (.signatureInvalid root.keyId)
  let key ← root.verifyingKey C
  require (C.accepts key message signature) (.signatureInvalid root.keyId)

def verify (keyId claimedAlgorithm : String) (message signature : Bytes) : Except KeyError TrustRoot := do
  let root ← resolve r role keyId
  require (claimedAlgorithm = root.algorithm.asStr) (.algorithmMismatch root.keyId root.algorithm claimedAlgorithm)
  verifyAgainst C root message signature
  return root

def verifyAny (message signature : Bytes) : Except KeyError TrustRoot :=
  match (trusted r role).find? (fun root => (verifyAgainst C root message signature).isOk) with
  | some root => .ok root
  | none => .error (.noTrustedKey role (trusted r role).length)

end Register

end Mutiny.Loom
